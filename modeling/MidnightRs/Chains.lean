import Mathlib.Data.List.Nodup
import Mathlib.Data.List.Perm.Basic

/-!
Records that name their parent by key, over arbitrary record and key types.
A linked list, newest record first, is a chain from one root; a rooted list is
one in which every parent comes earlier. A rooted list with one unreferenced
record is linked, which turns the result of a breadth-first walk into a chain.
-/
namespace MidnightRs.Chains

variable {α κ : Type*}

/-- How a record names itself and its parent. -/
structure Links (α κ : Type*) where
  key : α → κ
  parent : α → Option κ

section Chain
variable (L : Links α κ)

/-- Newest first: each record's parent is the next one, the last has none. -/
def Linked : List α → Prop
  | [] => True
  | a :: rest => L.parent a = rest.head?.map L.key ∧ Linked rest

/-- Newest first: each parent that is named is the key of an earlier record. -/
def Rooted : List α → Prop
  | [] => True
  | a :: rest => (∀ p, L.parent a = some p → p ∈ rest.map L.key) ∧ Rooted rest

def Unreferenced (nodes : List α) (a : α) : Prop := ∀ b ∈ nodes, L.parent b ≠ some (L.key a)

/-- The records form one chain, which is `chain` with the newest record first. -/
structure IsChain (nodes chain : List α) : Prop where
  perm : chain.Perm nodes
  nodup : (chain.map L.key).Nodup
  linked : Linked L chain

variable {L}

theorem Linked.tail {a : α} {rest : List α} (h : Linked L (a :: rest)) : Linked L rest := h.2

theorem Linked.of_append {xs ys : List α} (h : Linked L (xs ++ ys)) : Linked L ys := by
  induction xs with
  | nil => exact h
  | cons x xs ih => exact ih h.2

theorem Linked.rooted {chain : List α} (h : Linked L chain) : Rooted L chain := by
  induction chain with
  | nil => trivial
  | cons a rest ih =>
    refine ⟨?_, ih h.2⟩
    intro p hp
    rw [h.1] at hp
    obtain ⟨b, hb, rfl⟩ := Option.map_eq_some_iff.mp hp
    exact List.mem_map_of_mem (List.mem_of_mem_head? hb)

theorem Rooted.parent_mem {nodes : List α} (h : Rooted L nodes) {a : α} (ha : a ∈ nodes)
    {p : κ} (hp : L.parent a = some p) : p ∈ nodes.map L.key := by
  induction nodes with
  | nil => simp at ha
  | cons b rest ih =>
    rcases List.mem_cons.mp ha with rfl | ha
    · exact List.mem_cons_of_mem _ (h.1 p hp)
    · exact List.mem_cons_of_mem _ (ih h.2 ha)

/-- The newest record of a rooted list is referenced by no record. -/
theorem Rooted.unreferenced_head {a : α} {rest : List α} (h : Rooted L (a :: rest))
    (hnodup : ((a :: rest).map L.key).Nodup) : Unreferenced L (a :: rest) a := by
  have hfresh : L.key a ∉ rest.map L.key := by
    rw [List.map_cons] at hnodup
    exact (List.nodup_cons.mp hnodup).1
  intro b hb hparent
  rcases List.mem_cons.mp hb with rfl | hb
  · exact hfresh (h.1 _ hparent)
  · exact hfresh (h.2.parent_mem hb hparent)

theorem key_injOn {nodes : List α} (hnodup : (nodes.map L.key).Nodup) {a b : α}
    (ha : a ∈ nodes) (hb : b ∈ nodes) (hab : L.key a = L.key b) : a = b :=
  List.inj_on_of_nodup_map hnodup ha hb hab

/-- A rooted list with only one unreferenced record is a chain. The induction
strips the newest record, whose parent must then be the next one. -/
theorem Rooted.linked {nodes : List α} (h : Rooted L nodes) (hnodup : (nodes.map L.key).Nodup)
    (hone : ∀ a ∈ nodes, ∀ b ∈ nodes, Unreferenced L nodes a → Unreferenced L nodes b → a = b) :
    Linked L nodes := by
  induction nodes with
  | nil => trivial
  | cons a rest ih =>
    have htail : (rest.map L.key).Nodup := by
      rw [List.map_cons] at hnodup
      exact (List.nodup_cons.mp hnodup).2
    have hhead := h.unreferenced_head hnodup
    -- Only the newest record can reference what nothing in the tail references.
    have hnext : ∀ b ∈ rest, Unreferenced L rest b → L.parent a = some (L.key b) := by
      intro b hb hbun
      by_contra hne
      have hbun' : Unreferenced L (a :: rest) b := by
        intro c hc
        rcases List.mem_cons.mp hc with rfl | hc
        · exact hne
        · exact hbun c hc
      have hab : a = b := hone a List.mem_cons_self b (List.mem_cons_of_mem _ hb) hhead hbun'
      have hkey : L.key a ∈ rest.map L.key := hab ▸ List.mem_map_of_mem hb
      rw [List.map_cons] at hnodup
      exact (List.nodup_cons.mp hnodup).1 hkey
    refine ⟨?_, ih h.2 htail ?_⟩
    · cases rest with
      | nil =>
        cases hp : L.parent a with
        | none => rfl
        | some p => exact absurd (h.1 p hp) (by simp)
      | cons b rest => exact hnext b List.mem_cons_self (h.2.unreferenced_head htail)
    · intro b hb c hc hbun hcun
      have hkeys : some (L.key b) = some (L.key c) := (hnext b hb hbun).symm.trans (hnext c hc hcun)
      exact key_injOn htail hb hc (Option.some.inj hkeys)

theorem Linked.parent_inj {chain : List α} (h : Linked L chain)
    (hnodup : (chain.map L.key).Nodup) {a b : α} (ha : a ∈ chain) (hb : b ∈ chain)
    {p : κ} (hap : L.parent a = some p) (hbp : L.parent b = some p) : a = b := by
  induction chain with
  | nil => simp at ha
  | cons c rest ih =>
    have htail : (rest.map L.key).Nodup := by
      rw [List.map_cons] at hnodup
      exact (List.nodup_cons.mp hnodup).2
    -- The newest record's parent heads the tail, and nothing in the tail names it.
    have hskip : ∀ d ∈ rest, L.parent c = some p → L.parent d ≠ some p := by
      intro d hd hc hdp
      rw [h.1] at hc
      obtain ⟨e, he, rfl⟩ := Option.map_eq_some_iff.mp hc
      cases rest with
      | nil => simp at he
      | cons f rest =>
        simp only [List.head?_cons, Option.some.injEq] at he
        subst he
        exact h.2.rooted.unreferenced_head htail d hd hdp
    rcases List.mem_cons.mp ha with hac | ha <;> rcases List.mem_cons.mp hb with hbc | hb
    · exact hac.trans hbc.symm
    · exact absurd hbp (hskip b hb (hac ▸ hap))
    · exact absurd hap (hskip a ha (hbc ▸ hbp))
    · exact ih h.2 htail ha hb

/-- Every record but the newest is referenced. -/
theorem Linked.referenced {a : α} {rest : List α} (h : Linked L (a :: rest)) {b : α}
    (hb : b ∈ rest) : ∃ c ∈ a :: rest, L.parent c = some (L.key b) := by
  induction rest generalizing a with
  | nil => simp at hb
  | cons d rest ih =>
    rcases List.mem_cons.mp hb with rfl | hb
    · exact ⟨a, List.mem_cons_self, h.1⟩
    · obtain ⟨c, hc, hp⟩ := ih h.2 hb
      exact ⟨c, List.mem_cons_of_mem _ hc, hp⟩

theorem Linked.unreferenced_iff {a : α} {rest : List α} (h : Linked L (a :: rest))
    (hnodup : ((a :: rest).map L.key).Nodup) {b : α} (hb : b ∈ a :: rest) :
    Unreferenced L (a :: rest) b ↔ b = a := by
  constructor
  · intro hun
    rcases List.mem_cons.mp hb with rfl | hb
    · rfl
    · obtain ⟨c, hc, hp⟩ := h.referenced hb
      exact absurd hp (hun c hc)
  · rintro rfl
    exact h.rooted.unreferenced_head hnodup

/-- A chain has one root. -/
theorem Linked.root_unique {chain : List α} (h : Linked L chain) {a b : α}
    (ha : a ∈ chain) (hb : b ∈ chain) (har : L.parent a = none) (hbr : L.parent b = none) :
    a = b := by
  induction chain with
  | nil => simp at ha
  | cons c rest ih =>
    have hroot : L.parent c = none → rest = [] := by
      intro hc
      rw [h.1] at hc
      simpa using hc
    rcases List.mem_cons.mp ha with rfl | ha'
    · have hnil := hroot har
      subst hnil
      exact (List.mem_singleton.mp hb).symm
    · rcases List.mem_cons.mp hb with rfl | hb'
      · have hnil := hroot hbr
        subst hnil
        simp at ha'
      · exact ih h.2 ha' hb'

theorem Linked.exists_root {chain : List α} (h : Linked L chain) (hne : chain ≠ []) :
    ∃ a ∈ chain, L.parent a = none := by
  induction chain with
  | nil => exact absurd rfl hne
  | cons c rest ih =>
    cases rest with
    | nil => exact ⟨c, List.mem_cons_self, h.1⟩
    | cons d rest =>
      obtain ⟨a, ha, hroot⟩ := ih h.2 (by simp)
      exact ⟨a, List.mem_cons_of_mem _ ha, hroot⟩

/-- Changing records without touching keys or parents keeps a chain. -/
theorem Linked.map {chain : List α} (h : Linked L chain) (f : α → α)
    (hkey : ∀ a, L.key (f a) = L.key a) (hparent : ∀ a, L.parent (f a) = L.parent a) :
    Linked L (chain.map f) := by
  induction chain with
  | nil => trivial
  | cons a rest ih =>
    refine ⟨?_, ih h.2⟩
    rw [hparent, h.1]
    cases rest with
    | nil => rfl
    | cons b rest => simp [hkey]

/-- A property of keys that passes from parent to child holds along a rooted
list when it holds of the roots. -/
theorem Rooted.forall_key {nodes : List α} (h : Rooted L nodes) (C : κ → Prop)
    (hroot : ∀ a ∈ nodes, L.parent a = none → C (L.key a))
    (hstep : ∀ a ∈ nodes, ∀ p, L.parent a = some p → C p → C (L.key a)) :
    ∀ a ∈ nodes, C (L.key a) := by
  induction nodes with
  | nil => simp
  | cons b rest ih =>
    have hrest := ih h.2 (fun a ha => hroot a (List.mem_cons_of_mem _ ha))
      (fun a ha => hstep a (List.mem_cons_of_mem _ ha))
    intro a ha
    rcases List.mem_cons.mp ha with rfl | ha
    · cases hp : L.parent a with
      | none => exact hroot a List.mem_cons_self hp
      | some p =>
        obtain ⟨c, hc, hkey⟩ := List.mem_map.mp (h.1 p hp)
        exact hstep a List.mem_cons_self p hp (hkey ▸ hrest c hc)
    · exact hrest a ha

/-- The same, from one record of a chain up to its newest. -/
theorem Linked.forall_key_above {post pre : List α} {s : α} (h : Linked L (post ++ s :: pre))
    (C : κ → Prop) (hs : C (L.key s))
    (hstep : ∀ a ∈ post, ∀ p, L.parent a = some p → C p → C (L.key a)) :
    ∀ a ∈ post, C (L.key a) := by
  induction post with
  | nil => simp
  | cons b post ih =>
    have hpost := ih h.2 (fun a ha => hstep a (List.mem_cons_of_mem _ ha))
    have hnext : ∃ c ∈ post ++ [s], L.parent b = some (L.key c) := by
      have hp := h.1
      cases post with
      | nil => exact ⟨s, by simp, hp⟩
      | cons c post => exact ⟨c, by simp, hp⟩
    intro a ha
    rcases List.mem_cons.mp ha with rfl | ha
    · obtain ⟨c, hc, hp⟩ := hnext
      refine hstep a List.mem_cons_self _ hp ?_
      rcases List.mem_append.mp hc with hc | hc
      · exact hpost c hc
      · exact (List.mem_singleton.mp hc) ▸ hs
    · exact hpost a ha

/-- Records can be listed in the order of their keys. -/
theorem exists_map_key_eq {nodes : List α} (keys : List κ) (h : ∀ k ∈ keys, ∃ a ∈ nodes, L.key a = k) :
    ∃ as : List α, as.map L.key = keys ∧ ∀ a ∈ as, a ∈ nodes := by
  induction keys with
  | nil => exact ⟨[], rfl, by simp⟩
  | cons k keys ih =>
    obtain ⟨a, ha, hka⟩ := h k List.mem_cons_self
    obtain ⟨as, has, hmem⟩ := ih (fun j hj => h j (List.mem_cons_of_mem _ hj))
    refine ⟨a :: as, by rw [List.map_cons, hka, has], ?_⟩
    intro b hb
    rcases List.mem_cons.mp hb with rfl | hb
    · exact ha
    · exact hmem b hb

theorem IsChain.unreferenced_unique {nodes chain : List α} (h : IsChain L nodes chain) {a b : α}
    (ha : a ∈ chain) (hb : b ∈ chain) (hau : Unreferenced L chain a)
    (hbu : Unreferenced L chain b) : a = b := by
  cases hchain : chain with
  | nil => simp [hchain] at ha
  | cons c rest =>
    subst hchain
    rw [(h.linked.unreferenced_iff h.nodup ha).mp hau, (h.linked.unreferenced_iff h.nodup hb).mp hbu]

/-- Records form one chain in at most one way. -/
theorem IsChain.unique {nodes chain chain' : List α} (h : IsChain L nodes chain)
    (h' : IsChain L nodes chain') : chain = chain' := by
  induction chain generalizing chain' nodes with
  | nil => exact (h'.perm.trans h.perm.symm).symm.nil_eq
  | cons a rest ih =>
    have hperm : (a :: rest).Perm chain' := h.perm.trans h'.perm.symm
    cases chain' with
    | nil => exact absurd hperm.eq_nil (List.cons_ne_nil a rest)
    | cons b rest' =>
      have hnewest : Unreferenced L (a :: rest) b := fun c hc =>
        h'.linked.rooted.unreferenced_head h'.nodup c (hperm.mem_iff.mp hc)
      have hba : b = a := (h.linked.unreferenced_iff h.nodup
        (hperm.mem_iff.mpr List.mem_cons_self)).mp hnewest
      subst hba
      have hrest : IsChain L rest' rest' :=
        ⟨List.Perm.refl _, (List.nodup_cons.mp h'.nodup).2, h'.linked.tail⟩
      rw [ih ⟨hperm.cons_inv, (List.nodup_cons.mp h.nodup).2, h.linked.tail⟩ hrest]

end Chain

section Walk
variable [DecidableEq κ] (children : κ → List κ)

/-- The breadth-first walk, newest key first. Each round takes one key off the
queue, and the fuel bounds the rounds. -/
def walk : ℕ → List κ → List κ → List κ
  | 0, _, order => order
  | _ + 1, [], order => order
  | n + 1, h :: queue, order =>
    if h ∈ order then walk n queue order else walk n (queue ++ children h) (h :: order)

/-- Each key of the order is a start or a child of an earlier one. -/
def Grown (starts : List κ) : List κ → Prop
  | [] => True
  | h :: order => (h ∈ starts ∨ ∃ p ∈ order, h ∈ children p) ∧ Grown starts order

theorem walk_nodup (n : ℕ) (queue order : List κ) (h : order.Nodup) :
    (walk children n queue order).Nodup := by
  induction n generalizing queue order with
  | zero => exact h
  | succ n ih =>
    cases queue with
    | nil => exact h
    | cons k queue =>
      simp only [walk]
      split
      · exact ih queue order h
      · exact ih _ _ (List.nodup_cons.mpr ⟨‹_›, h⟩)

theorem walk_grown (starts : List κ) (n : ℕ) (queue order : List κ)
    (h : Grown children starts order)
    (hqueue : ∀ k ∈ queue, k ∈ starts ∨ ∃ p ∈ order, k ∈ children p) :
    Grown children starts (walk children n queue order) := by
  induction n generalizing queue order with
  | zero => exact h
  | succ n ih =>
    cases queue with
    | nil => exact h
    | cons k queue =>
      simp only [walk]
      split
      · exact ih queue order h (fun q hq => hqueue q (List.mem_cons_of_mem _ hq))
      · refine ih _ _ ⟨hqueue k List.mem_cons_self, h⟩ ?_
        intro q hq
        rcases List.mem_append.mp hq with hq | hq
        · rcases hqueue q (List.mem_cons_of_mem _ hq) with hs | ⟨p, hp, hqp⟩
          · exact Or.inl hs
          · exact Or.inr ⟨p, List.mem_cons_of_mem _ hp, hqp⟩
        · exact Or.inr ⟨k, List.mem_cons_self, hq⟩

/-- The walk stays inside every set that holds the starts and is closed under
children. -/
theorem walk_subset (C : κ → Prop) (hclosed : ∀ h, C h → ∀ c ∈ children h, C c) (n : ℕ)
    (queue order : List κ) (hqueue : ∀ k ∈ queue, C k) (horder : ∀ k ∈ order, C k) :
    ∀ k ∈ walk children n queue order, C k := by
  induction n generalizing queue order with
  | zero => exact horder
  | succ n ih =>
    cases queue with
    | nil => exact horder
    | cons k queue =>
      have hk : C k := hqueue k List.mem_cons_self
      have hrest : ∀ q ∈ queue, C q := fun q hq => hqueue q (List.mem_cons_of_mem _ hq)
      simp only [walk]
      split
      · exact ih queue order hrest horder
      · refine ih _ _ ?_ ?_
        · intro q hq
          rcases List.mem_append.mp hq with hq | hq
          · exact hrest q hq
          · exact hclosed k hk q hq
        · intro q hq
          rcases List.mem_cons.mp hq with rfl | hq
          · exact hk
          · exact horder q hq

variable (L : Links α κ) (nodes : List α)

/-- The edges whose parent the walk has not met. -/
def pendingEdges (order : List κ) : ℕ :=
  nodes.countP (fun a => (L.parent a).any (fun p => decide (p ∉ order)))

theorem pendingEdges_cons (k : κ) (order : List κ) (hk : k ∉ order) :
    pendingEdges L nodes (k :: order) + nodes.countP (fun a => decide (L.parent a = some k)) =
      pendingEdges L nodes order := by
  unfold pendingEdges
  induction nodes with
  | nil => rfl
  | cons a nodes ih =>
    have hhead : (if (L.parent a).any (fun p => decide (p ∉ k :: order)) then 1 else 0) +
        (if decide (L.parent a = some k) then 1 else 0) =
          if (L.parent a).any (fun p => decide (p ∉ order)) then 1 else 0 := by
      cases hp : L.parent a with
      | none => simp
      | some p =>
        by_cases hpk : p = k
        · subst hpk
          simp [hk]
        · by_cases hpo : p ∈ order <;> simp [hpk, hpo]
    simp only [List.countP_cons]
    omega

variable {children}

/-- With fuel for the queue and the edges still to follow, the walk takes in
its queue and is closed under children: each round uses up one of them. -/
theorem walk_closed
    (hchildren : ∀ h, (children h).length = nodes.countP (fun a => decide (L.parent a = some h)))
    (n : ℕ) (queue order : List κ) (hfuel : queue.length + pendingEdges L nodes order ≤ n)
    (hinv : ∀ h ∈ order, ∀ c ∈ children h, c ∈ order ∨ c ∈ queue) :
    (∀ k ∈ order, k ∈ walk children n queue order) ∧
    (∀ k ∈ queue, k ∈ walk children n queue order) ∧
      ∀ h ∈ walk children n queue order, ∀ c ∈ children h, c ∈ walk children n queue order := by
  induction n generalizing queue order with
  | zero =>
    have hnil : queue = [] := List.length_eq_zero_iff.mp (by omega)
    subst hnil
    refine ⟨fun k hk => hk, by simp, fun h hh c hc => ?_⟩
    exact (hinv h hh c hc).resolve_right (List.not_mem_nil)
  | succ n ih =>
    cases queue with
    | nil =>
      refine ⟨fun k hk => hk, by simp, fun h hh c hc => ?_⟩
      exact (hinv h hh c hc).resolve_right (List.not_mem_nil)
    | cons k queue =>
      simp only [walk, List.length_cons] at hfuel ⊢
      split
      · rename_i hk
        have hinv' : ∀ h ∈ order, ∀ c ∈ children h, c ∈ order ∨ c ∈ queue := by
          intro h hh c hc
          rcases hinv h hh c hc with hco | hcq
          · exact Or.inl hco
          · rcases List.mem_cons.mp hcq with rfl | hcq
            · exact Or.inl hk
            · exact Or.inr hcq
        obtain ⟨horder, hqueue, hclosed⟩ := ih queue order (by omega) hinv'
        refine ⟨horder, ?_, hclosed⟩
        intro q hq
        rcases List.mem_cons.mp hq with rfl | hq
        · exact horder q hk
        · exact hqueue q hq
      · rename_i hk
        have hedges := pendingEdges_cons L nodes k order hk
        have hinv' : ∀ h ∈ k :: order, ∀ c ∈ children h,
            c ∈ k :: order ∨ c ∈ queue ++ children k := by
          intro h hh c hc
          rcases List.mem_cons.mp hh with rfl | hh
          · exact Or.inr (List.mem_append_right _ hc)
          · rcases hinv h hh c hc with hco | hcq
            · exact Or.inl (List.mem_cons_of_mem _ hco)
            · rcases List.mem_cons.mp hcq with rfl | hcq
              · exact Or.inl List.mem_cons_self
              · exact Or.inr (List.mem_append_left _ hcq)
        obtain ⟨horder, hqueue, hclosed⟩ := ih (queue ++ children k) (k :: order)
          (by rw [List.length_append, hchildren]; omega) hinv'
        refine ⟨fun q hq => horder q (List.mem_cons_of_mem _ hq), ?_, hclosed⟩
        intro q hq
        rcases List.mem_cons.mp hq with rfl | hq
        · exact horder q List.mem_cons_self
        · exact hqueue q (List.mem_append_left _ hq)

/-- The keys reachable from the starts, newest first. -/
def reach (children : κ → List κ) (nodes : List α) (starts : List κ) : List κ :=
  walk children (starts.length + nodes.length) starts []

variable {L nodes}

/-- The children of a key are the keys of the records that name it. -/
def ChildrenOf (L : Links α κ) (nodes : List α) (children : κ → List κ) : Prop :=
  ∀ h, (children h).Perm ((nodes.filter (fun a => decide (L.parent a = some h))).map L.key)

theorem ChildrenOf.mem_iff (hc : ChildrenOf L nodes children) (h k : κ) :
    k ∈ children h ↔ ∃ a ∈ nodes, L.parent a = some h ∧ L.key a = k := by
  rw [(hc h).mem_iff]
  simp [and_assoc]

theorem ChildrenOf.length_eq (hc : ChildrenOf L nodes children) (h : κ) :
    (children h).length = nodes.countP (fun a => decide (L.parent a = some h)) := by
  rw [(hc h).length_eq, List.length_map, List.countP_eq_length_filter]

theorem reach_nodup (starts : List κ) : (reach children nodes starts).Nodup :=
  walk_nodup children _ starts [] List.nodup_nil

theorem reach_grown (starts : List κ) : Grown children starts (reach children nodes starts) :=
  walk_grown children starts _ starts [] trivial (fun _ hk => Or.inl hk)

theorem reach_subset (C : κ → Prop) (starts : List κ) (hstarts : ∀ k ∈ starts, C k)
    (hclosed : ∀ h, C h → ∀ c ∈ children h, C c) : ∀ k ∈ reach children nodes starts, C k :=
  walk_subset children C hclosed _ starts [] hstarts (by simp)

theorem reach_closed (hc : ChildrenOf L nodes children) (starts : List κ) :
    (∀ k ∈ starts, k ∈ reach children nodes starts) ∧
      ∀ h ∈ reach children nodes starts, ∀ c ∈ children h, c ∈ reach children nodes starts := by
  have hfuel : starts.length + pendingEdges L nodes [] ≤ starts.length + nodes.length :=
    Nat.add_le_add_left List.countP_le_length _
  exact (walk_closed L nodes hc.length_eq _ starts [] hfuel (by simp)).2

/-- The roots' keys. -/
def IsRoots (L : Links α κ) (nodes : List α) (starts : List κ) : Prop :=
  ∀ k, k ∈ starts ↔ ∃ a ∈ nodes, L.parent a = none ∧ L.key a = k

theorem reach_keys (hc : ChildrenOf L nodes children) (starts : List κ)
    (hroots : IsRoots L nodes starts) :
    ∀ k ∈ reach children nodes starts, ∃ a ∈ nodes, L.key a = k := by
  refine reach_subset (fun k => ∃ a ∈ nodes, L.key a = k) starts ?_ ?_
  · intro k hk
    obtain ⟨a, ha, _, hka⟩ := (hroots k).mp hk
    exact ⟨a, ha, hka⟩
  · intro h _ k hk
    obtain ⟨a, ha, _, hka⟩ := (hc.mem_iff h k).mp hk
    exact ⟨a, ha, hka⟩

theorem rooted_of_grown (hc : ChildrenOf L nodes children) (starts : List κ)
    (hroots : IsRoots L nodes starts) (hnodup : (nodes.map L.key).Nodup) (as : List α)
    (has : ∀ a ∈ as, a ∈ nodes) (h : Grown children starts (as.map L.key)) : Rooted L as := by
  induction as with
  | nil => trivial
  | cons a as ih =>
    refine ⟨?_, ih (fun b hb => has b (List.mem_cons_of_mem _ hb)) h.2⟩
    intro p hp
    have hmem : a ∈ nodes := has a List.mem_cons_self
    rcases h.1 with hstart | ⟨q, hq, hchild⟩
    · obtain ⟨b, hb, hroot, hkey⟩ := (hroots _).mp hstart
      rw [key_injOn hnodup hb hmem hkey, hp] at hroot
      simp at hroot
    · obtain ⟨b, hb, hparent, hkey⟩ := (hc.mem_iff _ _).mp hchild
      rw [key_injOn hnodup hb hmem hkey, hp, Option.some.injEq] at hparent
      exact hparent ▸ hq

/-- When the walk from the roots meets every record and one record is
unreferenced, the records form a chain that ends at it. -/
theorem isChain_of_reach (hc : ChildrenOf L nodes children) (starts : List κ)
    (hroots : IsRoots L nodes starts) (hnodup : (nodes.map L.key).Nodup)
    (hall : (reach children nodes starts).length = nodes.length)
    (hone : ∀ a ∈ nodes, ∀ b ∈ nodes, Unreferenced L nodes a → Unreferenced L nodes b → a = b) :
    ∃ chain, IsChain L nodes chain := by
  obtain ⟨as, has, hmem⟩ :=
    exists_map_key_eq (reach children nodes starts) (reach_keys hc starts hroots)
  have hkeys : (as.map L.key).Nodup := has ▸ reach_nodup starts
  have hlen : as.length = nodes.length := by
    rw [← hall, ← has, List.length_map]
  have hperm : as.Perm nodes :=
    (List.subperm_of_subset hkeys.of_map (fun a ha => hmem a ha)).perm_of_length_le 
      (Nat.le_of_eq hlen.symm)
  have hrooted : Rooted L as :=
    rooted_of_grown hc starts hroots hnodup as hmem (has ▸ reach_grown starts)
  refine ⟨as, hperm, hkeys, hrooted.linked hkeys ?_⟩
  intro a ha b hb hau hbu
  have htransfer : ∀ c, Unreferenced L as c → Unreferenced L nodes c :=
    fun c hcu d hd => hcu d (hperm.mem_iff.mpr hd)
  exact hone a (hmem a ha) b (hmem b hb) (htransfer a hau) (htransfer b hbu)

/-- The walk from the roots of a chain meets every record. -/
theorem IsChain.reach_length {chain : List α} (h : IsChain L nodes chain)
    (hc : ChildrenOf L nodes children) (starts : List κ) (hroots : IsRoots L nodes starts) :
    (reach children nodes starts).length = nodes.length := by
  obtain ⟨hstarts, hclosed⟩ := reach_closed hc starts
  have hall : ∀ a ∈ chain, L.key a ∈ reach children nodes starts := by
    refine h.linked.rooted.forall_key (· ∈ reach children nodes starts) ?_ ?_
    · intro a ha hroot
      exact hstarts _ ((hroots _).mpr ⟨a, h.perm.mem_iff.mp ha, hroot, rfl⟩)
    · intro a ha p hp hreach
      exact hclosed p hreach _ ((hc.mem_iff _ _).mpr ⟨a, h.perm.mem_iff.mp ha, hp, rfl⟩)
  have hperm : (reach children nodes starts).Perm (chain.map L.key) := by
    refine (List.perm_ext_iff_of_nodup (reach_nodup starts) h.nodup).mpr ?_
    intro k
    constructor
    · intro hk
      obtain ⟨a, ha, hka⟩ := reach_keys hc starts hroots k hk
      exact List.mem_map.mpr ⟨a, h.perm.mem_iff.mpr ha, hka⟩
    · intro hk
      obtain ⟨a, ha, rfl⟩ := List.mem_map.mp hk
      exact hall a ha
  rw [hperm.length_eq, List.length_map, h.perm.length_eq]

/-- The walk from the roots of a chain meets its records in the chain's order. -/
theorem IsChain.reach_eq {chain : List α} (h : IsChain L nodes chain)
    (hc : ChildrenOf L nodes children) (starts : List κ) (hroots : IsRoots L nodes starts) :
    reach children nodes starts = chain.map L.key := by
  have hnodup : (nodes.map L.key).Nodup := (h.perm.map L.key).nodup_iff.mp h.nodup
  obtain ⟨as, has, hmem⟩ :=
    exists_map_key_eq (reach children nodes starts) (reach_keys hc starts hroots)
  have hkeys : (as.map L.key).Nodup := has ▸ reach_nodup starts
  have hlen : as.length = nodes.length := by
    rw [← h.reach_length hc starts hroots, ← has, List.length_map]
  have hperm : as.Perm nodes :=
    (List.subperm_of_subset hkeys.of_map (fun a ha => hmem a ha)).perm_of_length_le
      (Nat.le_of_eq hlen.symm)
  have hrooted : Rooted L as :=
    rooted_of_grown hc starts hroots hnodup as hmem (has ▸ reach_grown starts)
  have has' : IsChain L nodes as := by
    refine ⟨hperm, hkeys, hrooted.linked hkeys ?_⟩
    intro a ha b hb hau hbu
    have htransfer : ∀ c, Unreferenced L as c → Unreferenced L chain c :=
      fun c hcu d hd => hcu d (hperm.mem_iff.mpr (h.perm.mem_iff.mp hd))
    exact h.unreferenced_unique (h.perm.mem_iff.mpr (hmem a ha)) (h.perm.mem_iff.mpr (hmem b hb))
      (htransfer a hau) (htransfer b hbu)
  rw [← has, has'.unique h]

/-- The walk from a record of a chain meets it and what was built on it. -/
theorem IsChain.mem_reach_iff {post pre : List α} {s : α} (h : IsChain L nodes (post ++ s :: pre))
    (hc : ChildrenOf L nodes children) (k : κ) :
    k ∈ reach children nodes [L.key s] ↔ k ∈ (post ++ [s]).map L.key := by
  obtain ⟨hstarts, hclosed⟩ := reach_closed hc [L.key s]
  constructor
  · refine reach_subset (· ∈ (post ++ [s]).map L.key) [L.key s] ?_ ?_ k
    · intro j hj
      rw [List.mem_singleton.mp hj]
      exact List.mem_map_of_mem (by simp)
    · intro j hj c hcj
      obtain ⟨a, ha, hp, rfl⟩ := (hc.mem_iff _ _).mp hcj
      have hchain : a ∈ post ++ s :: pre := h.perm.mem_iff.mpr ha
      have hsplit : (post ++ [s]) ++ pre = post ++ s :: pre := by simp
      -- A parent of the start or of an older record is older than the start.
      have holder : j ∉ pre.map L.key := by
        have hnodup := h.nodup
        rw [← hsplit, List.map_append] at hnodup
        exact fun hjp => List.disjoint_of_nodup_append hnodup hj hjp
      have hrooted : Rooted L (s :: pre) := h.linked.of_append.rooted
      rcases List.mem_append.mp hchain with hpost | hrest
      · exact List.mem_map_of_mem (List.mem_append_left _ hpost)
      · rcases List.mem_cons.mp hrest with rfl | hpre
        · exact absurd (hrooted.1 j hp) holder
        · exact absurd (hrooted.2.parent_mem hpre hp) holder
  · intro hk
    have hs : L.key s ∈ reach children nodes [L.key s] := hstarts _ List.mem_cons_self
    obtain ⟨a, ha, rfl⟩ := List.mem_map.mp hk
    rcases List.mem_append.mp ha with hpost | hlast
    · refine h.linked.forall_key_above (· ∈ reach children nodes [L.key s]) hs ?_ a hpost
      intro b hb p hp hreach
      have hmem : b ∈ nodes := h.perm.mem_iff.mp (List.mem_append_left _ hb)
      exact hclosed p hreach _ ((hc.mem_iff _ _).mpr ⟨b, hmem, hp, rfl⟩)
    · rw [List.mem_singleton.mp hlast]
      exact hs

end Walk

section Order
variable (L : Links α κ) (nodes : List α)

/-- A record whose ancestors lead to a root. -/
inductive FromRoot : α → Prop
  | root {a : α} (ha : a ∈ nodes) (hp : L.parent a = none) : FromRoot a
  | child {a b : α} (hb : FromRoot b) (ha : a ∈ nodes) (hp : L.parent a = some (L.key b)) :
      FromRoot a

/-- One record comes before another in a list. -/
def Before {β : Type*} (l : List β) (a b : β) : Prop := [a, b].Sublist l

variable {L nodes}

theorem FromRoot.mem {a : α} (h : FromRoot L nodes a) : a ∈ nodes := by
  cases h with
  | root ha _ => exact ha
  | child _ ha _ => exact ha

theorem FromRoot.mono {nodes' : List α} (hsub : ∀ a ∈ nodes, a ∈ nodes') {a : α}
    (h : FromRoot L nodes a) : FromRoot L nodes' a := by
  induction h with
  | root ha hp => exact .root (hsub _ ha) hp
  | child _ ha hp ih => exact .child ih (hsub _ ha) hp

theorem FromRoot.exists_root {a : α} (h : FromRoot L nodes a) :
    ∃ r ∈ nodes, L.parent r = none := by
  induction h with
  | root ha hp => exact ⟨_, ha, hp⟩
  | child _ _ _ ih => exact ih

/-- A parent of a record that leads to a root does so as well. -/
theorem FromRoot.parent (hnodup : (nodes.map L.key).Nodup) {a b : α} (h : FromRoot L nodes a)
    (hb : b ∈ nodes) (hp : L.parent a = some (L.key b)) : FromRoot L nodes b := by
  cases h with
  | root ha hroot =>
    rw [hroot] at hp
    cases hp
  | child hc ha hparent =>
    rw [hparent, Option.some.injEq] at hp
    exact key_injOn hnodup hc.mem hb hp ▸ hc

/-- The walk from the roots meets what leads to a root. -/
theorem mem_reach_iff_fromRoot [DecidableEq κ] {children : κ → List κ}
    (hc : ChildrenOf L nodes children) (starts : List κ) (hroots : IsRoots L nodes starts) (k : κ) :
    k ∈ reach children nodes starts ↔ ∃ a, FromRoot L nodes a ∧ L.key a = k := by
  obtain ⟨hstarts, hclosed⟩ := reach_closed hc starts
  constructor
  · refine reach_subset (fun k => ∃ a, FromRoot L nodes a ∧ L.key a = k) starts ?_ ?_ k
    · intro j hj
      obtain ⟨a, ha, hp, hkey⟩ := (hroots j).mp hj
      exact ⟨a, .root ha hp, hkey⟩
    · rintro j ⟨b, hb, rfl⟩ i hi
      obtain ⟨a, ha, hp, hkey⟩ := (hc.mem_iff _ _).mp hi
      exact ⟨a, .child hb ha hp, hkey⟩
  · rintro ⟨a, ha, rfl⟩
    induction ha with
    | root ha hp => exact hstarts _ ((hroots _).mpr ⟨_, ha, hp, rfl⟩)
    | child _ ha hp ih => exact hclosed _ ih _ ((hc.mem_iff _ _).mpr ⟨_, ha, hp, rfl⟩)

/-- In the walk's order, newest first, a key that is no start follows its parent. -/
theorem Grown.before {children : κ → List κ} {starts order : List κ}
    (h : Grown children starts order) {k : κ} (hk : k ∈ order) (hstart : k ∉ starts) :
    ∃ p, k ∈ children p ∧ Before order k p := by
  induction order with
  | nil => simp at hk
  | cons j order ih =>
    rcases List.mem_cons.mp hk with rfl | hk
    · obtain ⟨p, hp, hchild⟩ := h.1.resolve_left hstart
      exact ⟨p, hchild, List.Sublist.cons_cons k (List.singleton_sublist.mpr hp)⟩
    · obtain ⟨p, hchild, hbefore⟩ := ih h.2 hk
      exact ⟨p, hchild, hbefore.cons j⟩

theorem Before.ne {β : Type*} {l : List β} (hnodup : l.Nodup) {a b : β} (h : Before l a b) :
    a ≠ b := by
  have hpair : [a, b].Nodup := hnodup.sublist h
  simpa using hpair

/-- Of two records of a list one comes before the other. -/
theorem before_or {β : Type*} {l : List β} {a b : β} (ha : a ∈ l) (hb : b ∈ l) (hne : a ≠ b) :
    Before l a b ∨ Before l b a := by
  obtain ⟨xs, ys, rfl⟩ := List.append_of_mem ha
  rcases List.mem_append.mp hb with hxs | hys
  · refine Or.inr ?_
    exact (List.singleton_sublist.mpr hxs).append
      (List.singleton_sublist.mpr List.mem_cons_self)
  · rcases List.mem_cons.mp hys with rfl | hys
    · exact absurd rfl hne
    · refine Or.inl (List.Sublist.trans ?_ (List.sublist_append_right xs _))
      exact List.Sublist.cons_cons a (List.singleton_sublist.mpr hys)

/-- In a sorted list the smaller of two records comes first. -/
theorem before_iff_of_pairwise {β : Type*} {l : List β} {r : β → β → Prop}
    (hsorted : l.Pairwise r) (hnodup : l.Nodup) {a b : β} (ha : a ∈ l) (hb : b ∈ l)
    (hanti : r a b → r b a → a = b) : Before l a b ↔ r a b ∧ a ≠ b := by
  have hpair : ∀ {c d : β}, Before l c d → r c d := by
    intro c d h
    have := hsorted.sublist h
    simpa using this
  constructor
  · exact fun h => ⟨hpair h, h.ne hnodup⟩
  · rintro ⟨hr, hne⟩
    refine (before_or ha hb hne).resolve_right fun h => ?_
    exact hne (hanti hr (hpair h))

/-- The records that the walk from the roots meets, newest first, each before its parent. -/
theorem exists_reach_records [DecidableEq κ] {children : κ → List κ}
    (hc : ChildrenOf L nodes children) (starts : List κ) (hroots : IsRoots L nodes starts)
    (hnodup : (nodes.map L.key).Nodup) :
    ∃ as : List α, as.map L.key = reach children nodes starts ∧ as.Nodup ∧
      (∀ a, a ∈ as ↔ FromRoot L nodes a) ∧
      ∀ a ∈ as, ∀ b ∈ as, L.parent a = some (L.key b) → Before as a b := by
  obtain ⟨as, has, hmem⟩ := exists_map_key_eq (reach children nodes starts)
    (reach_keys hc starts hroots)
  have hkeys : (as.map L.key).Nodup := has ▸ reach_nodup starts
  refine ⟨as, has, hkeys.of_map, fun a => ?_, fun a ha b hb hp => ?_⟩
  · constructor
    · intro ha
      obtain ⟨b, hb, hkey⟩ := (mem_reach_iff_fromRoot hc starts hroots _).mp
        (has ▸ List.mem_map_of_mem ha)
      exact key_injOn hnodup hb.mem (hmem a ha) hkey ▸ hb
    · intro ha
      have hin : L.key a ∈ as.map L.key :=
        has ▸ (mem_reach_iff_fromRoot hc starts hroots _).mpr ⟨a, ha, rfl⟩
      obtain ⟨b, hb, hkey⟩ := List.mem_map.mp hin
      exact key_injOn hnodup (hmem b hb) ha.mem hkey ▸ hb
  · have hgrown : Grown children starts (as.map L.key) := has ▸ reach_grown starts
    have hstart : L.key a ∉ starts := by
      intro hroot
      obtain ⟨r, hr, hnone, hkey⟩ := (hroots _).mp hroot
      rw [key_injOn hnodup hr (hmem a ha) hkey, hp] at hnone
      cases hnone
    obtain ⟨p, hchild, hbefore⟩ := hgrown.before (List.mem_map_of_mem ha) hstart
    obtain ⟨c, hcn, hcp, hkey⟩ := (hc.mem_iff _ _).mp hchild
    rw [key_injOn hnodup hcn (hmem a ha) hkey, hp, Option.some.injEq] at hcp
    obtain ⟨pair, hsub, hpair⟩ := List.sublist_map_iff.mp hbefore
    have hlen : pair.length = 2 := by
      rw [← List.length_map L.key, ← hpair, List.length_cons, List.length_singleton]
    obtain ⟨x, y, rfl⟩ := List.length_eq_two.mp hlen
    simp only [List.map_cons, List.map_nil, List.cons.injEq, and_true] at hpair
    have hx : x = a := key_injOn hkeys (hsub.subset (by simp)) ha hpair.1.symm
    have hy : y = b := key_injOn hkeys (hsub.subset (by simp)) hb (hpair.2.symm.trans hcp.symm)
    exact hx ▸ hy ▸ hsub

theorem before_append_left {β : Type*} {l l' : List β} {a b : β} (h : Before l a b) :
    Before (l ++ l') a b :=
  List.Sublist.trans h (List.sublist_append_left l l')

theorem before_append_right_iff {β : Type*} {l l' : List β} {a b : β} (ha : a ∉ l) :
    Before (l ++ l') a b ↔ Before l' a b := by
  constructor
  · intro h
    obtain ⟨xs, ys, heq, hxs, hys⟩ := List.sublist_append_iff.mp h
    cases xs with
    | nil =>
      rw [List.nil_append] at heq
      subst heq
      exact hys
    | cons x xs =>
      rw [List.cons_append, List.cons.injEq] at heq
      exact absurd (hxs.subset (heq.1 ▸ List.mem_cons_self)) ha
  · exact fun h => List.Sublist.trans h (List.sublist_append_right l l')

theorem Linked.parent_of_append {xs ys : List α} {a b : α} (h : Linked L (xs ++ a :: b :: ys)) :
    L.parent a = some (L.key b) :=
  (Linked.of_append h).1

theorem not_before_head {β : Type*} {l : List β} {a b : β} (hnodup : (b :: l).Nodup) :
    ¬ Before (b :: l) a b := by
  intro h
  obtain ⟨hfresh, _⟩ := List.nodup_cons.mp hnodup
  cases h with
  | cons _ h => exact hfresh (h.subset (by simp))
  | cons_cons _ h => exact hfresh (List.singleton_sublist.mp h)

/-- A record between the newest one and the start has a child that comes after the start. -/
theorem IsChain.exists_child {front mid pre : List α} {a b s : α}
    (h : IsChain L nodes (front ++ a :: (mid ++ s :: pre))) (hb : b ∈ mid ++ [s]) :
    ∃ c ∈ nodes, L.parent c = some (L.key b) ∧ c ∈ a :: mid ∧ L.key c ≠ L.key s := by
  obtain ⟨us, vs, hsplit⟩ := List.append_of_mem hb
  have hlinked : Linked L (a :: us ++ b :: (vs ++ pre)) := by
    have heq : a :: us ++ b :: (vs ++ pre) = a :: (mid ++ s :: pre) := by
      have happ : mid ++ s :: pre = (mid ++ [s]) ++ pre := by simp
      rw [happ, hsplit]
      simp
    rw [heq]
    exact h.linked.of_append
  obtain ⟨ws, c, hws⟩ : ∃ ws c, a :: us = ws ++ [c] :=
    ⟨_, _, (List.dropLast_append_getLast (List.cons_ne_nil a us)).symm⟩
  have hc : c ∈ a :: us := hws ▸ List.mem_append_right _ List.mem_cons_self
  have hsub : ∀ x ∈ us, x ∈ mid := by
    have hprefix : us <+: mid := by
      refine List.prefix_of_prefix_length_le ⟨b :: vs, hsplit.symm⟩ ⟨[s], rfl⟩ ?_
      have hlen := congrArg List.length hsplit
      simp only [List.length_append, List.length_cons, List.length_nil] at hlen
      omega
    exact fun x hx => hprefix.subset hx
  have hcm : c ∈ a :: mid := by
    rcases List.mem_cons.mp hc with rfl | hc
    · exact List.mem_cons_self
    · exact List.mem_cons_of_mem _ (hsub c hc)
  refine ⟨c, ?_, ?_, hcm, ?_⟩
  · refine h.perm.mem_iff.mp (List.mem_append_right _ ?_)
    exact List.mem_append_left (s :: pre) hcm
  · rw [hws, List.append_assoc] at hlinked
    exact hlinked.parent_of_append
  · have hnodup := h.nodup
    rw [List.map_append] at hnodup
    have htail := List.Nodup.of_append_right hnodup
    have happ : a :: (mid ++ s :: pre) = (a :: mid) ++ s :: pre := rfl
    rw [happ, List.map_append] at htail
    intro hkey
    exact List.disjoint_of_nodup_append htail (List.mem_map_of_mem hcm)
      (hkey ▸ List.mem_map_of_mem List.mem_cons_self)

/-- The walk from one record of a chain meets what was built on it in the chain's order.
The newest key of the order is that of the newest record: any other has a child after it. -/
theorem IsChain.grown_eq [DecidableEq κ] {children : κ → List κ} (hc : ChildrenOf L nodes children)
    {post pre : List α} {s : α} (front : List α) {order : List κ}
    (h : IsChain L nodes (front ++ (post ++ s :: pre))) (hgrown : Grown children [L.key s] order)
    (hperm : order.Perm ((post ++ [s]).map L.key)) : order = (post ++ [s]).map L.key := by
  have hnodes : (nodes.map L.key).Nodup := (h.perm.map L.key).nodup_iff.mp h.nodup
  induction post generalizing front order with
  | nil => exact List.perm_singleton.mp hperm
  | cons a post ih =>
    have hsub : ((a :: post ++ [s]).map L.key).Nodup := by
      have happ : front ++ (a :: post ++ s :: pre) = front ++ ((a :: post ++ [s]) ++ pre) := by
        simp
      have hnodup := h.nodup
      rw [happ, List.map_append, List.map_append] at hnodup
      exact (List.Nodup.of_append_right hnodup).of_append_left
    have horder : order.Nodup := hperm.nodup_iff.mpr hsub
    cases order with
    | nil => exact absurd hperm.nil_eq (by simp)
    | cons k order =>
      have hk : k = L.key a := by
        obtain ⟨b, hb, rfl⟩ := List.mem_map.mp (hperm.mem_iff.mp List.mem_cons_self)
        rcases List.mem_cons.mp (show b ∈ a :: (post ++ [s]) from hb) with rfl | hb
        · rfl
        · obtain ⟨c, hcn, hcp, hcm, hcs⟩ := h.exists_child hb
          have hcin : L.key c ∈ L.key b :: order :=
            hperm.mem_iff.mpr (List.mem_map_of_mem (List.mem_append_left [s] hcm))
          obtain ⟨p, hchild, hbefore⟩ := hgrown.before hcin (by simpa using hcs)
          obtain ⟨d, hd, hdp, hdkey⟩ := (hc.mem_iff p (L.key c)).mp hchild
          rw [key_injOn hnodes hd hcn hdkey, hcp, Option.some.injEq] at hdp
          rw [← hdp] at hbefore
          exact absurd hbefore (not_before_head horder)
      subst hk
      have htail := ih (front ++ [a]) (by simpa using h) hgrown.2
        (List.Perm.cons_inv hperm)
      rw [htail]
      rfl

end Order

end MidnightRs.Chains
