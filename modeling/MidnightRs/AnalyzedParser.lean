import MidnightRs.AnalyzedForms
import Mathlib.Data.List.Forall2

/-!
The parser fails closed exactly on the trees whose lists have the elements of
their forms. What it makes of such a tree spells the whole of it; a shorter list
panics, and a longer one leaves elements out of the model.
-/
namespace MidnightRs.AnalyzedIr

section Sound

/-- A plan stands for its element: a leaf spells it, and a list begins with the
heads of the variant and the fields among them, and is too short for the fields
whenever a check finds it too short. -/
def Plan.Sound (s : Sexp) : Plan → Prop
  | .leaf n => n.write = s
  | .refuse _ => True
  | .crash => True
  | .parts variant checked lead fields _ =>
    ∃ items, s = .list items ∧
      items.take (variant.heads.length + lead.length) =
        variant.heads.map .sym ++ lead.map Node.write ∧
      (checked = .panic → items.length < variant.heads.length + lead.length + fields.length)

theorem asList_eq_some {s : Sexp} {items : List Sexp} (h : s.asList = some items) :
    s = .list items := by
  cases s with
  | list items' =>
    cases h
    rfl
  | _ => cases h

theorem asSym_eq_some {s : Sexp} {v : String} (h : s.asSym = some v) : s = .sym v := by
  cases s with
  | sym v' =>
    cases h
    rfl
  | _ => cases h

theorem take_of_map_asSym {items : List Sexp} {heads : List String}
    (h : (items.take heads.length).map Sexp.asSym = heads.map some) :
    items.take heads.length = heads.map .sym := by
  induction heads generalizing items with
  | nil => rfl
  | cons head heads ih =>
    cases items with
    | nil => cases h
    | cons s items =>
      simp only [List.length_cons, List.take_succ_cons, List.map_cons, List.cons.injEq] at h ⊢
      exact ⟨asSym_eq_some h.1, ih h.2⟩

theorem take_of_head {items : List Sexp} {heads : List String}
    (h : (Sexp.list items).head.toList = heads) : items.take heads.length = heads.map .sym := by
  subst h
  cases items with
  | nil => rfl
  | cons s items =>
    cases hs : s.asSym with
    | none => simp [Sexp.head, Sexp.asList, hs]
    | some v =>
      obtain rfl := asSym_eq_some hs
      rfl

theorem sound_parts {items : List Sexp} {variant : Variant} {fields : List Kind}
    {rest : Option Kind} (h : items.take variant.heads.length = variant.heads.map .sym) :
    (Plan.parts variant (.ok ()) [] fields rest).Sound (.list items) :=
  ⟨items, rfl, by simpa using h, fun h => by cases h⟩

theorem shape_check_ne_panic (s : Sexp) (shape : Shape) : shape.check s ≠ .panic := by
  intro h
  cases shape with
  | fixed context length heads =>
    simp only [Shape.check] at h
    split at h
    · cases h
    · split at h <;> cases h
  | tagged context head =>
    simp only [Shape.check] at h
    split at h
    · cases h
    · split at h <;> cases h

/-- Only an index past the list makes the checks panic. -/
theorem runChecks_panic {items : List Sexp} {checks : List (ℕ × Shape)}
    (h : runChecks items checks = .panic) : ∃ check ∈ checks, items.length ≤ check.1 := by
  induction checks with
  | nil => cases h
  | cons check checks ih =>
    obtain ⟨i, shape⟩ := check
    unfold runChecks at h
    cases hi : items[i]? with
    | none => exact ⟨(i, shape), List.mem_cons_self, List.getElem?_eq_none_iff.mp hi⟩
    | some s =>
      rw [hi] at h
      by_contra hnone
      refine Outcome.bind_ne_panic (shape_check_ne_panic s shape) (fun _ _ hrest => hnone ?_) h
      obtain ⟨check, hcheck, hle⟩ := ih hrest
      exact ⟨check, List.mem_cons_of_mem _ hcheck, hle⟩

/-- A form checks no position past its fields. -/
def Form.ChecksFields (form : Form) : Prop := ∀ check ∈ form.checks, check.1 ≤ form.fields.length

theorem formOf_heads {forms : List Form} {heads : List String} {form : Form}
    (h : formOf forms heads = some form) : form ∈ forms ∧ form.variant.heads = heads :=
  ⟨List.mem_of_find?_eq_some h, by simpa using List.find?_some h⟩

theorem sound_form {items : List Sexp} {form : Form} (hchecks : form.ChecksFields)
    (hheads : form.variant.heads ≠ [])
    (h : items.take form.variant.heads.length = form.variant.heads.map .sym) :
    (form.plan items).Sound (.list items) := by
  refine ⟨items, rfl, by simpa using h, fun hpanic => ?_⟩
  obtain ⟨check, hcheck, hle⟩ := runChecks_panic hpanic
  have hfields := hchecks check hcheck
  have hlen := List.length_pos_of_ne_nil hheads
  simp only [List.length_nil]
  omega

/-- The forms of a table that select by one head and check only their fields. -/
def TableOk (forms : List Form) : Prop :=
  ∀ form ∈ forms, form.ChecksFields ∧ form.variant.heads ≠ []

theorem sound_forms {context : String} {forms : List Form} (hforms : TableOk forms) {s : Sexp}
    {other : Plan} (hother : other.Sound s) : (planForms context forms s other).Sound s := by
  unfold planForms
  split
  · trivial
  · rename_i items hitems
    obtain rfl := asList_eq_some hitems
    split
    · rename_i form hform
      obtain ⟨hmem, hheads⟩ := formOf_heads hform
      obtain ⟨hchecks, hne⟩ := hforms form hmem
      exact sound_form hchecks hne (take_of_head hheads.symm)
    · exact hother

instance (form : Form) : Decidable form.ChecksFields :=
  inferInstanceAs (Decidable (∀ check ∈ form.checks, check.1 ≤ form.fields.length))

instance (forms : List Form) : Decidable (TableOk forms) :=
  inferInstanceAs (Decidable (∀ form ∈ forms, form.ChecksFields ∧ form.variant.heads ≠ []))

theorem exprForms_ok : TableOk exprForms := by decide

theorem typeForms_ok : TableOk typeForms := by decide

theorem programForms_ok : TableOk programForms := by decide

theorem sound_bigNat (context : String) (s : Sexp) : (planBigNat context s).Sound s := by
  unfold planBigNat
  split
  · split
    · rename_i i hi
      simp only [Plan.Sound, Node.write, Int.toNat_of_nonneg hi]
    · trivial
  · trivial

theorem sound_nat (context : String) (s : Sexp) : (planNat context s).Sound s := by
  have hbig := sound_bigNat context s
  unfold planNat
  split
  · rename_i n hn
    rw [hn] at hbig
    split
    · exact hbig
    · trivial
  · exact hbig

theorem sound_fixed (context : String) (variant : Variant) (kinds : List Kind) (s : Sexp) :
    (planFixed context variant kinds s).Sound s := by
  unfold planFixed
  split
  · trivial
  · rename_i items hitems
    obtain rfl := asList_eq_some hitems
    split
    · rename_i h
      exact sound_parts (take_of_map_asSym h.2)
    · trivial

theorem sound_listOf (context : String) (kind : Kind) (s : Sexp) :
    (planListOf context kind s).Sound s := by
  unfold planListOf
  split
  · trivial
  · rename_i items hitems
    obtain rfl := asList_eq_some hitems
    exact sound_parts rfl

theorem sound_tagged (variant : Variant) (context : String) (kind : Kind) (s : Sexp) :
    (planTagged variant context kind s).Sound s := by
  unfold planTagged
  split
  · trivial
  · rename_i items hitems
    obtain rfl := asList_eq_some hitems
    split
    · rename_i h
      exact sound_parts (take_of_head h)
    · trivial

theorem sound_keyed (variant : Variant) (context boolContext : String) (s : Sexp) :
    (planKeyed variant context boolContext s).Sound s := by
  unfold planKeyed
  split
  · trivial
  · rename_i items hitems
    obtain rfl := asList_eq_some hitems
    split
    · rename_i h
      exact sound_parts (take_of_head h.2)
    · trivial

theorem sound_curve (s : Sexp) : (planCurve s).Sound s := by
  have hok : TableOk curveForms := by decide
  unfold planCurve
  split
  · rename_i items form hitems hform
    obtain rfl := asList_eq_some hitems
    obtain ⟨hmem, hheads⟩ := formOf_heads hform
    obtain ⟨hchecks, hne⟩ := hok form hmem
    exact sound_form hchecks hne (take_of_head hheads.symm)
  · trivial

theorem take_one_of_head {s : Sexp} {head : String} (h : s.head = some head) :
    ∃ items, s = .list items ∧ items.take 1 = [.sym head] := by
  cases s with
  | list items =>
    have hhead : (Sexp.list items).head.toList = [head] := by rw [h]; rfl
    exact ⟨items, rfl, take_of_head hhead⟩
  | _ => cases h

theorem sound_type (s : Sexp) : (planType s).Sound s := by
  unfold planType
  split
  · rfl
  · refine sound_forms typeForms_ok ?_
    split
    · rename_i head hhead
      obtain ⟨items, rfl, htake⟩ := take_one_of_head hhead
      exact ⟨items, rfl, htake, fun h => by cases h⟩
    · trivial

theorem sound_expr (s : Sexp) : (planExpr s).Sound s := by
  refine sound_forms exprForms_ok ?_
  split <;> trivial

theorem sound_stateValue {items : List Sexp} (h : items.take 1 = [.sym "state-value"]) :
    (planStateValue items (.list items)).Sound (.list items) := by
  have hok : TableOk stateForms := by decide
  unfold planStateValue
  split
  · rename_i form hform
    obtain ⟨hmem, hheads⟩ := formOf_heads hform
    obtain ⟨hchecks, hne⟩ := hok form hmem
    refine sound_form hchecks hne ?_
    rw [hheads]
    match items, h with
    | [s], h =>
      obtain rfl : s = .sym "state-value" := by simpa using h
      rfl
    | s :: kind :: items, h =>
      obtain rfl : s = .sym "state-value" := by simpa using h
      cases hkind : kind.asSym with
      | none => simp [hkind]
      | some v =>
        obtain rfl := asSym_eq_some hkind
        rfl
  · trivial

theorem sound_operand (s : Sexp) : (planOperand s).Sound s := by
  have hok : TableOk operandForms := by decide
  unfold planOperand
  split
  · rfl
  · rfl
  · rfl
  · rename_i items
    split
    · rename_i head hhead
      obtain ⟨items', heq, htake⟩ := take_one_of_head hhead
      cases heq
      split
      · rename_i hstate
        subst hstate
        exact sound_stateValue htake
      · split
        · rename_i hadd
          obtain ⟨rfl, -⟩ := hadd
          exact sound_form (by decide) (by decide) htake
        · split
          · rename_i form hform
            obtain ⟨hmem, hheads⟩ := formOf_heads hform
            obtain ⟨hchecks, hne⟩ := hok form hmem
            refine sound_form hchecks hne ?_
            rw [hheads]
            exact htake
          · exact sound_expr _
    · exact sound_parts rfl
  · trivial

theorem sound_instruction (s : Sexp) : (planInstruction s).Sound s := by
  unfold planInstruction
  split
  · trivial
  · trivial
  · rename_i op items hitems
    obtain rfl := asList_eq_some hitems
    split
    · exact ⟨_, rfl, rfl, fun h => by cases h⟩
    · trivial

/-- Every plan stands for its element. -/
theorem plan_sound (s : Sexp) (kind : Kind) : (plan s kind).Sound s := by
  cases kind with
  | sym context =>
    simp only [plan]
    split
    · rfl
    · trivial
  | string context =>
    simp only [plan]
    split
    · rfl
    · trivial
  | boolean context =>
    simp only [plan]
    split
    · rfl
    · trivial
  | bigNat context => exact sound_bigNat context s
  | nat context => exact sound_nat context s
  | literal =>
    simp only [plan]
    split
    · rfl
    · rfl
    · rfl
    · trivial
  | curve => exact sound_curve s
  | fieldType => exact sound_forms (by decide) trivial
  | adtArg =>
    simp only [plan]
    split
    · exact sound_nat _ _
    · exact sound_type s
  | type => exact sound_type s
  | operand => exact sound_operand s
  | instruction => exact sound_instruction s
  | tupleArg => exact sound_forms (by decide) trivial
  | func => exact sound_forms (by decide) trivial
  | pathElement =>
    simp only [plan]
    split
    · exact sound_nat _ _
    · exact sound_fixed _ _ _ s
  | expr => exact sound_expr s
  | opClass =>
    simp only [plan]
    split
    · rfl
    · exact sound_fixed _ _ _ s
  | ledgerArray => exact sound_tagged _ _ _ s
  | ledgerItem =>
    simp only [plan]
    split
    · exact sound_tagged _ _ _ s
    · exact sound_fixed _ _ _ s
  | programElement => exact sound_forms programForms_ok trivial
  | fixed context variant kinds => exact sound_fixed _ _ _ s
  | listOf context kind => exact sound_listOf _ _ s
  | tagged variant context kind => exact sound_tagged _ _ _ s
  | keyed variant context boolContext => exact sound_keyed _ _ _ s

end Sound

section Closed

/-- Exact elements do not panic, and what is read of elements spells them when
they are exact and only then. -/
def ReadsExactly (s : Sexp) (kind : Kind) : Prop :=
  (Exact s kind → read s kind ≠ .panic) ∧
    ∀ n, read s kind = .ok n → (n.write = s ↔ Exact s kind)

def ReadsFieldsExactly (items : List Sexp) : Prop :=
  ∀ (skip : ℕ) (fields : List Kind) (rest : Option Kind),
    (ExactFields items skip fields rest → readFields items skip fields rest ≠ .panic) ∧
      ∀ nodes, readFields items skip fields rest = .ok nodes →
        (nodes.map Node.write = items.drop skip ↔ ExactFields items skip fields rest)

theorem exactFields_length {items : List Sexp} {skip : ℕ} {fields : List Kind}
    {rest : Option Kind} (h : ExactFields items skip fields rest) (hskip : skip ≤ items.length) :
    skip + fields.length ≤ items.length := by
  induction items generalizing skip fields rest with
  | nil =>
    obtain rfl : fields = [] := h
    simpa using hskip
  | cons s items ih =>
    match skip, fields, rest, h with
    | skip + 1, fields, rest, h =>
      have hrest := ih h (by simpa using hskip)
      simp only [List.length_cons]
      omega
    | 0, kind :: fields, rest, h =>
      have hrest := ih h.2 (Nat.zero_le _)
      simp only [List.length_cons]
      omega
    | 0, [], some kind, h => simp
    | 0, [], none, h => exact h.elim

theorem make_write_iff {items : List Sexp} {variant : Variant} {lead nodes : List Node}
    (htake : items.take (variant.heads.length + lead.length) =
      variant.heads.map .sym ++ lead.map Node.write) :
    (Node.make variant (lead ++ nodes)).write = .list items ↔
      nodes.map Node.write = items.drop (variant.heads.length + lead.length) := by
  rw [Node.write, Node.writeAll_eq, List.map_append, ← List.append_assoc, ← htake,
    Sexp.list.injEq]
  constructor
  · intro h
    have hsplit := h.trans (List.take_append_drop (variant.heads.length + lead.length) items).symm
    exact List.append_cancel_left hsplit
  · intro h
    rw [h, List.take_append_drop]

/-- A list reads as its elements do. -/
theorem readsExactly_of_fields (s : Sexp) (kind : Kind)
    (hfields : ∀ items, s = .list items → ReadsFieldsExactly items) : ReadsExactly s kind := by
  have hsound := plan_sound s kind
  unfold ReadsExactly
  rw [read.eq_def, Exact.eq_def]
  cases hplan : plan s kind with
  | leaf n =>
    rw [hplan] at hsound
    refine ⟨fun _ h => (by cases h), fun n' h => ?_⟩
    cases h
    exact iff_of_true hsound trivial
  | refuse e => exact ⟨fun _ h => (by cases h), fun _ h => (by cases h)⟩
  | crash => exact ⟨fun h => h.elim, fun _ h => (by cases h)⟩
  | parts variant checked lead fields rest =>
    rw [hplan] at hsound
    obtain ⟨items, rfl, htake, hchecked⟩ := hsound
    obtain ⟨hpanic, hread⟩ := hfields items rfl (variant.heads.length + lead.length) fields rest
    have hskip : variant.heads.length + lead.length ≤ items.length := by
      have hlen := congrArg List.length htake
      simp only [List.length_take, List.length_append, List.length_map] at hlen
      omega
    constructor
    · intro hexact
      refine Outcome.bind_ne_panic (fun h => ?_) (fun _ _ => Outcome.map_ne_panic (hpanic hexact))
      have hlen := exactFields_length hexact hskip
      have hshort := hchecked h
      omega
    · intro n hn
      obtain ⟨_, -, hn⟩ := Outcome.bind_eq_ok hn
      obtain ⟨nodes, hnodes, rfl⟩ := Outcome.map_eq_ok hn
      exact (make_write_iff htake).trans (hread nodes hnodes)

theorem readsFieldsExactly_nil : ReadsFieldsExactly [] := by
  intro skip fields rest
  cases fields with
  | nil =>
    refine ⟨fun _ h => (by cases h), fun nodes h => ?_⟩
    cases h
    simp [ExactFields]
  | cons kind fields => exact ⟨fun h => (by cases h), fun _ h => (by cases h)⟩

theorem readsFieldsExactly_cons {s : Sexp} {items : List Sexp} (hs : ∀ kind, ReadsExactly s kind)
    (hitems : ReadsFieldsExactly items) : ReadsFieldsExactly (s :: items) := by
  have hcons : ∀ (kind : Kind) (fields : List Kind) (rest : Option Kind),
      (Exact s kind ∧ ExactFields items 0 fields rest → (read s kind).bind (fun n =>
        (readFields items 0 fields rest).map (n :: ·)) ≠ .panic) ∧
      ∀ nodes, (read s kind).bind (fun n => (readFields items 0 fields rest).map (n :: ·)) =
        .ok nodes → (nodes.map Node.write = s :: items ↔
          Exact s kind ∧ ExactFields items 0 fields rest) := by
    intro kind fields rest
    obtain ⟨hpanic, hread⟩ := hs kind
    obtain ⟨hpanics, hreads⟩ := hitems 0 fields rest
    constructor
    · intro h
      exact Outcome.bind_ne_panic (hpanic h.1) (fun _ _ => Outcome.map_ne_panic (hpanics h.2))
    · intro nodes h
      obtain ⟨n, hn, h⟩ := Outcome.bind_eq_ok h
      obtain ⟨ns, hns, rfl⟩ := Outcome.map_eq_ok h
      rw [List.map_cons, List.cons.injEq, hread n hn]
      exact and_congr_right fun _ => hreads ns hns
  intro skip fields rest
  match skip, fields, rest with
  | skip + 1, fields, rest => exact hitems skip fields rest
  | 0, kind :: fields, rest => exact hcons kind fields rest
  | 0, [], some kind => exact hcons kind [] (some kind)
  | 0, [], none =>
    refine ⟨fun h => h.elim, fun nodes h => ?_⟩
    cases h
    exact iff_of_false (fun h => by cases h) (fun h => h)

mutual

theorem readsExactly : (s : Sexp) → (kind : Kind) → ReadsExactly s kind
  | .list items, kind =>
    readsExactly_of_fields _ kind (fun _ h => Sexp.list.inj h ▸ readsFieldsExactly items)
  | .sym _, kind => readsExactly_of_fields _ kind (fun _ h => by cases h)
  | .str _, kind => readsExactly_of_fields _ kind (fun _ h => by cases h)
  | .int _, kind => readsExactly_of_fields _ kind (fun _ h => by cases h)
  | .bool _, kind => readsExactly_of_fields _ kind (fun _ h => by cases h)
  | .bytes _, kind => readsExactly_of_fields _ kind (fun _ h => by cases h)
  | .pair _ _, kind => readsExactly_of_fields _ kind (fun _ h => by cases h)

theorem readsFieldsExactly : (items : List Sexp) → ReadsFieldsExactly items
  | [] => readsFieldsExactly_nil
  | s :: items => readsFieldsExactly_cons (readsExactly s) (readsFieldsExactly items)

end

/-- An outcome that is an error, or a model that spells the whole element. -/
def FailsClosed (s : Sexp) (o : Outcome Node) : Prop :=
  o ≠ .panic ∧ ∀ n, o = .ok n → n.write = s

theorem read_failsClosed_iff (s : Sexp) (kind : Kind) :
    FailsClosed s (read s kind) ↔ (∃ e, read s kind = .error e) ∨ Exact s kind := by
  obtain ⟨hpanic, hread⟩ := readsExactly s kind
  cases hs : read s kind with
  | ok n =>
    constructor
    · exact fun h => .inr ((hread n hs).mp (h.2 n rfl))
    · rintro (⟨e, h⟩ | h)
      · cases h
      · refine ⟨fun h => (by cases h), fun n' hn => ?_⟩
        cases hn
        exact (hread n hs).mpr h
  | error e => exact iff_of_true ⟨fun h => (by cases h), fun _ h => (by cases h)⟩ (.inl ⟨e, rfl⟩)
  | panic =>
    refine iff_of_false (fun h => h.1 rfl) ?_
    rintro (⟨e, h⟩ | h)
    · cases h
    · exact hpanic h hs

end Closed

section Program

def headed (head : String) (rest : List Sexp) : List Sexp :=
  rest.filter (fun e => e.head = some head)

def sectionHeads : List String :=
  ["compiler-version", "language-version", "runtime-version", "exports", "contract-types"]

/-- The elements that no section head introduces. -/
def programElements (rest : List Sexp) : List Sexp :=
  rest.filter (fun e => e.head ∉ sectionHeads.map some)

/-- What the sections with a head hold, one after the other. -/
def entries (head : String) (rest : List Sexp) : List Sexp :=
  (headed head rest).flatMap sectionTail

def writeVersion (key v : String) : Sexp := .list [.sym key, .str v]

def writeExport (e : String × String) : Sexp := .pair (.sym e.1) (.sym e.2)

/-- A model spells an artifact when every element of it stands in the model: the
three versions once each, and the entries of the other sections in order. -/
structure Spells (rest : List Sexp) (ir : AnalyzedIr) : Prop where
  compiler : headed "compiler-version" rest = [writeVersion "compiler-version" ir.compilerVersion]
  language : headed "language-version" rest = [writeVersion "language-version" ir.languageVersion]
  runtime : headed "runtime-version" rest = [writeVersion "runtime-version" ir.runtimeVersion]
  exports : entries "exports" rest = ir.exports.map writeExport
  contractTypes : entries "contract-types" rest = ir.contractTypes.map Node.write
  elements : programElements rest = ir.elements.map Node.write

/-- An artifact with no version given twice and exact types and elements. -/
structure ExactProgram (rest : List Sexp) : Prop where
  compiler : (headed "compiler-version" rest).length ≤ 1
  language : (headed "language-version" rest).length ≤ 1
  runtime : (headed "runtime-version" rest).length ≤ 1
  contractTypes : ∀ t ∈ entries "contract-types" rest, Exact t .type
  elements : ∀ e ∈ programElements rest, Exact e .programElement

/-- What reading sections adds to what was read before. -/
structure SectionsRead (rest : List Sexp) (acc acc' : Sections) : Prop where
  language : ∃ vs : List String, headed "language-version" rest =
      vs.map (writeVersion "language-version") ∧
    acc'.languageVersion = vs.getLast?.or acc.languageVersion
  runtime : ∃ vs : List String, headed "runtime-version" rest =
      vs.map (writeVersion "runtime-version") ∧
    acc'.runtimeVersion = vs.getLast?.or acc.runtimeVersion
  exports : ∃ es, acc'.exports = acc.exports ++ es ∧ entries "exports" rest = es.map writeExport
  contractTypes : ∃ ts, acc'.contractTypes = acc.contractTypes ++ ts ∧
    List.Forall₂ (fun t n => read t .type = .ok n) (entries "contract-types" rest) ts
  elements : ∃ es, acc'.elements = acc.elements ++ es ∧
    List.Forall₂ (fun e n => read e .programElement = .ok n) (programElements rest) es

theorem version_ok {s : Sexp} {key v : String} (h : version s key = .ok v) :
    s = writeVersion key v := by
  unfold version at h
  split at h
  · split at h
    · rename_i hkey
      split at h
      · cases h
        rw [asSym_eq_some hkey]
        rfl
      · cases h
    · cases h
  · cases h
  · cases h

theorem version_ne_panic (s : Sexp) (key : String) : version s key ≠ .panic := by
  intro h
  unfold version at h
  split at h
  · split at h
    · split at h <;> cases h
    · cases h
  · cases h
  · cases h

theorem readSym_ok {s : Sexp} {context v : String} (h : readSym s context = .ok v) :
    s = .sym v := by
  unfold readSym at h
  split at h <;> cases h
  rfl

theorem readExports_ok {items : List Sexp} {es : List (String × String)}
    (h : readExports items = .ok es) : items = es.map writeExport := by
  induction items generalizing es with
  | nil =>
    cases h
    rfl
  | cons entry items ih =>
    cases entry with
    | pair a b =>
      obtain ⟨name, hname, h⟩ := Outcome.bind_eq_ok h
      obtain ⟨target, htarget, h⟩ := Outcome.bind_eq_ok h
      obtain ⟨rest, hrest, rfl⟩ := Outcome.map_eq_ok h
      obtain rfl := readSym_ok hname
      obtain rfl := readSym_ok htarget
      rw [ih hrest]
      rfl
    | _ => cases h

theorem readSym_ne_panic (s : Sexp) (context : String) : readSym s context ≠ .panic := by
  intro h
  unfold readSym at h
  split at h <;> cases h

theorem readExports_ne_panic (items : List Sexp) : readExports items ≠ .panic := by
  induction items with
  | nil => exact fun h => by cases h
  | cons entry items ih =>
    cases entry with
    | pair a b =>
      exact Outcome.bind_ne_panic (readSym_ne_panic _ _) fun _ _ =>
        Outcome.bind_ne_panic (readSym_ne_panic _ _) fun _ _ => Outcome.map_ne_panic ih
    | _ => exact fun h => by cases h

theorem readAll_ok {kind : Kind} {items : List Sexp} {ns : List Node}
    (h : readAll kind items = .ok ns) :
    List.Forall₂ (fun s n => read s kind = .ok n) items ns := by
  induction items generalizing ns with
  | nil =>
    cases h
    exact .nil
  | cons s items ih =>
    obtain ⟨n, hn, h⟩ := Outcome.bind_eq_ok h
    obtain ⟨rest, hrest, rfl⟩ := Outcome.map_eq_ok h
    exact .cons hn (ih hrest)

theorem readAll_ne_panic {kind : Kind} {items : List Sexp} (h : ∀ s ∈ items, Exact s kind) :
    readAll kind items ≠ .panic := by
  induction items with
  | nil => exact fun h => by cases h
  | cons s items ih =>
    obtain ⟨hs, hitems⟩ := List.forall_mem_cons.mp h
    exact Outcome.bind_ne_panic ((readsExactly s kind).1 hs) fun _ _ =>
      Outcome.map_ne_panic (ih hitems)

/-- Elements that all read are spelled by what is read when all are exact. -/
theorem all_write_iff {kind : Kind} {items : List Sexp} {ns : List Node}
    (h : List.Forall₂ (fun s n => read s kind = .ok n) items ns) :
    items = ns.map Node.write ↔ ∀ s ∈ items, Exact s kind := by
  induction h with
  | nil => simp
  | cons hn _ ih =>
    rw [List.map_cons, List.cons.injEq, List.forall_mem_cons, ih, eq_comm,
      (readsExactly _ kind).2 _ hn]

theorem SectionsRead.trans {rest rest' : List Sexp} {acc acc₁ acc₂ : Sections}
    (h : SectionsRead rest acc acc₁) (h' : SectionsRead rest' acc₁ acc₂) :
    SectionsRead (rest ++ rest') acc acc₂ := by
  obtain ⟨vs, hvs, hlanguage⟩ := h.language
  obtain ⟨vs', hvs', hlanguage'⟩ := h'.language
  obtain ⟨ws, hws, hruntime⟩ := h.runtime
  obtain ⟨ws', hws', hruntime'⟩ := h'.runtime
  obtain ⟨es, hes, hexports⟩ := h.exports
  obtain ⟨es', hes', hexports'⟩ := h'.exports
  obtain ⟨ts, hts, htypes⟩ := h.contractTypes
  obtain ⟨ts', hts', htypes'⟩ := h'.contractTypes
  obtain ⟨ps, hps, helements⟩ := h.elements
  obtain ⟨ps', hps', helements'⟩ := h'.elements
  refine ⟨⟨vs ++ vs', ?_, ?_⟩, ⟨ws ++ ws', ?_, ?_⟩, ⟨es ++ es', ?_, ?_⟩, ⟨ts ++ ts', ?_, ?_⟩,
    ⟨ps ++ ps', ?_, ?_⟩⟩
  · rw [headed, List.filter_append, List.map_append, ← hvs, ← hvs']
    rfl
  · rw [hlanguage', hlanguage, List.getLast?_append, Option.or_assoc]
  · rw [headed, List.filter_append, List.map_append, ← hws, ← hws']
    rfl
  · rw [hruntime', hruntime, List.getLast?_append, Option.or_assoc]
  · rw [hes', hes, List.append_assoc]
  · rw [entries, headed, List.filter_append, List.flatMap_append, List.map_append, ← hexports,
      ← hexports']
    rfl
  · rw [hts', hts, List.append_assoc]
  · rw [entries, headed, List.filter_append, List.flatMap_append]
    exact List.rel_append htypes htypes'
  · rw [hps', hps, List.append_assoc]
  · rw [programElements, List.filter_append]
    exact List.rel_append helements helements'

theorem or_getLast_nil {o : Option String} : o = ([] : List String).getLast?.or o := by simp

/-- One element of the artifact, by its head. -/
theorem readSection_ok {acc acc' : Sections} {e : Sexp} (h : readSection acc e = .ok acc') :
    SectionsRead [e] acc acc' := by
  have hnone : ∀ {head : String}, e.head ≠ some head → headed head [e] = [] := by
    intro head hne
    simp [headed, hne]
  have hentries : ∀ {head : String}, e.head ≠ some head → entries head [e] = [] := by
    intro head hne
    rw [entries, hnone hne, List.flatMap_nil]
  have hone : ∀ {head : String}, e.head = some head → headed head [e] = [e] := by
    intro head heq
    simp [headed, heq]
  have htail : ∀ {head : String}, e.head = some head → entries head [e] = sectionTail e := by
    intro head heq
    rw [entries, hone heq, List.flatMap_singleton]
  have hsection : ∀ {head : String}, head ∈ sectionHeads → e.head = some head →
      programElements [e] = [] := by
    intro head hmem heq
    simp [programElements, heq, hmem]
  have hdistinct : ∀ {a b : String}, a ≠ b → e.head = some a → e.head ≠ some b :=
    fun hne ha hb => hne (Option.some.inj (ha.symm.trans hb))
  have hempty : ∀ {kind : Kind} {rest : List Sexp}, rest = [] →
      List.Forall₂ (fun t n => read t kind = .ok n) rest [] := by
    intro kind rest hrest
    subst hrest
    exact .nil
  unfold readSection at h
  split at h
  · rename_i hhead
    cases h
    exact ⟨⟨[], hnone (hdistinct (by decide) hhead), or_getLast_nil⟩,
      ⟨[], hnone (hdistinct (by decide) hhead), or_getLast_nil⟩,
      ⟨[], (List.append_nil _).symm, hentries (hdistinct (by decide) hhead)⟩,
      ⟨[], (List.append_nil _).symm, hempty (hentries (hdistinct (by decide) hhead))⟩,
      ⟨[], (List.append_nil _).symm, hempty (hsection (by decide) hhead)⟩⟩
  · split at h
    · rename_i hhead
      obtain ⟨v, hv, rfl⟩ := Outcome.map_eq_ok h
      refine ⟨⟨[v], ?_, rfl⟩, ⟨[], hnone (hdistinct (by decide) hhead), or_getLast_nil⟩,
        ⟨[], (List.append_nil _).symm, hentries (hdistinct (by decide) hhead)⟩,
        ⟨[], (List.append_nil _).symm, hempty (hentries (hdistinct (by decide) hhead))⟩,
        ⟨[], (List.append_nil _).symm, hempty (hsection (by decide) hhead)⟩⟩
      rw [hone hhead, version_ok hv]
      rfl
    · split at h
      · rename_i hhead
        obtain ⟨v, hv, rfl⟩ := Outcome.map_eq_ok h
        refine ⟨⟨[], hnone (hdistinct (by decide) hhead), or_getLast_nil⟩, ⟨[v], ?_, rfl⟩,
          ⟨[], (List.append_nil _).symm, hentries (hdistinct (by decide) hhead)⟩,
          ⟨[], (List.append_nil _).symm, hempty (hentries (hdistinct (by decide) hhead))⟩,
          ⟨[], (List.append_nil _).symm, hempty (hsection (by decide) hhead)⟩⟩
        rw [hone hhead, version_ok hv]
        rfl
      · split at h
        · rename_i hhead
          obtain ⟨es, hes, rfl⟩ := Outcome.map_eq_ok h
          refine ⟨⟨[], hnone (hdistinct (by decide) hhead), or_getLast_nil⟩,
            ⟨[], hnone (hdistinct (by decide) hhead), or_getLast_nil⟩, ⟨es, rfl, ?_⟩,
            ⟨[], (List.append_nil _).symm, hempty (hentries (hdistinct (by decide) hhead))⟩,
            ⟨[], (List.append_nil _).symm, hempty (hsection (by decide) hhead)⟩⟩
          rw [htail hhead]
          exact readExports_ok hes
        · split at h
          · rename_i hhead
            obtain ⟨ts, hts, rfl⟩ := Outcome.map_eq_ok h
            refine ⟨⟨[], hnone (hdistinct (by decide) hhead), or_getLast_nil⟩,
              ⟨[], hnone (hdistinct (by decide) hhead), or_getLast_nil⟩,
              ⟨[], (List.append_nil _).symm, hentries (hdistinct (by decide) hhead)⟩,
              ⟨ts, rfl, ?_⟩, ⟨[], (List.append_nil _).symm, hempty (hsection (by decide) hhead)⟩⟩
            rw [htail hhead]
            exact readAll_ok hts
          · rename_i hcompiler hlanguage hruntime hexports htypes
            obtain ⟨n, hn, rfl⟩ := Outcome.map_eq_ok h
            refine ⟨⟨[], hnone hlanguage, or_getLast_nil⟩, ⟨[], hnone hruntime, or_getLast_nil⟩,
              ⟨[], (List.append_nil _).symm, hentries hexports⟩,
              ⟨[], (List.append_nil _).symm, hempty (hentries htypes)⟩, ⟨[n], rfl, ?_⟩⟩
            have helement : programElements [e] = [e] := by
              simp [programElements, sectionHeads, hcompiler, hlanguage, hruntime, hexports, htypes]
            rw [helement]
            exact .cons hn .nil

theorem sectionsRead_nil (acc : Sections) : SectionsRead [] acc acc :=
  ⟨⟨[], rfl, or_getLast_nil⟩, ⟨[], rfl, or_getLast_nil⟩, ⟨[], (List.append_nil _).symm, rfl⟩,
    ⟨[], (List.append_nil _).symm, .nil⟩, ⟨[], (List.append_nil _).symm, .nil⟩⟩

theorem readSections_ok {acc acc' : Sections} {rest : List Sexp}
    (h : readSections acc rest = .ok acc') : SectionsRead rest acc acc' := by
  induction rest generalizing acc with
  | nil =>
    cases h
    exact sectionsRead_nil _
  | cons e rest ih =>
    obtain ⟨acc₁, he, h⟩ := Outcome.bind_eq_ok h
    exact (readSection_ok he).trans (ih h)

/-- Reading exact types and elements does not panic. -/
theorem readSections_ne_panic {acc : Sections} {rest : List Sexp}
    (htypes : ∀ t ∈ entries "contract-types" rest, Exact t .type)
    (helements : ∀ e ∈ programElements rest, Exact e .programElement) :
    readSections acc rest ≠ .panic := by
  induction rest generalizing acc with
  | nil => exact fun h => by cases h
  | cons e rest ih =>
    refine Outcome.bind_ne_panic ?_ (fun acc' _ => ih ?_ ?_)
    · intro h
      unfold readSection at h
      split at h
      · cases h
      · split at h
        · exact Outcome.map_ne_panic (version_ne_panic _ _) h
        · split at h
          · exact Outcome.map_ne_panic (version_ne_panic _ _) h
          · split at h
            · exact Outcome.map_ne_panic (readExports_ne_panic _) h
            · split at h
              · rename_i hhead
                refine Outcome.map_ne_panic (readAll_ne_panic fun t ht => htypes t ?_) h
                rw [entries, headed, List.filter_cons_of_pos (by simpa using hhead)]
                exact List.mem_append_left _ ht
              · rename_i hcompiler hlanguage hruntime hexports hcontract
                refine Outcome.map_ne_panic ((readsExactly e _).1 (helements e ?_)) h
                refine List.mem_filter.mpr ⟨List.mem_cons_self, ?_⟩
                simp [sectionHeads, hcompiler, hlanguage, hruntime, hexports, hcontract]
    · intro t ht
      refine htypes t ?_
      obtain ⟨section', hmem, hin⟩ := List.mem_flatMap.mp ht
      obtain ⟨hrest, hhead⟩ := List.mem_filter.mp hmem
      exact List.mem_flatMap.mpr
        ⟨section', List.mem_filter.mpr ⟨List.mem_cons_of_mem _ hrest, hhead⟩, hin⟩
    · intro e' he'
      obtain ⟨hrest, hhead⟩ := List.mem_filter.mp he'
      exact helements e' (List.mem_filter.mpr ⟨List.mem_cons_of_mem _ hrest, hhead⟩)

theorem tagged_ok {s : Sexp} {head context : String} {rest : List Sexp}
    (h : tagged s head context = .ok rest) : s = .list (.sym head :: rest) := by
  unfold tagged at h
  split at h
  · split at h
    · rename_i hhead
      cases h
      rw [asSym_eq_some hhead]
    · cases h
  · cases h
  · cases h

theorem tagged_ne_panic (s : Sexp) (head context : String) : tagged s head context ≠ .panic := by
  intro h
  unfold tagged at h
  split at h
  · split at h <;> cases h
  · cases h
  · cases h

theorem compilerVersion_ne_panic (s : Sexp) : compilerVersion s ≠ .panic := by
  refine Outcome.bind_ne_panic (tagged_ne_panic _ _ _) (fun rest _ h => ?_)
  split at h
  · cases h
  · exact version_ne_panic _ _ h

theorem required_ok {header : String} {o : Option String} {v : String}
    (h : required header o = .ok v) : o = some v := by
  cases o with
  | none => cases h
  | some w =>
    cases h
    rfl

theorem required_ne_panic (header : String) (o : Option String) : required header o ≠ .panic := by
  cases o <;> exact fun h => by cases h

/-- A version that is read last stands alone when it is given once. -/
theorem version_once_iff {vs : List String} {key v : String} {found : List Sexp}
    (hfound : found = vs.map (writeVersion key)) (hlast : vs.getLast? = some v) :
    found = [writeVersion key v] ↔ found.length ≤ 1 := by
  subst hfound
  constructor
  · intro h
    rw [h]
    exact Nat.le_refl _
  · intro h
    rw [List.length_map] at h
    match vs, hlast with
    | [w], hlast =>
      cases hlast
      rfl
    | w :: w' :: vs, _ =>
      simp only [List.length_cons] at h
      omega

/-- The version that the header check reads is the first one. -/
theorem compilerVersion_once_iff {rest : List Sexp} {v : String}
    (h : compilerVersion (.list (.sym "analyzed-ir" :: rest)) = .ok v) :
    headed "compiler-version" rest = [writeVersion "compiler-version" v] ↔
      (headed "compiler-version" rest).length ≤ 1 := by
  obtain ⟨rest', hrest, h⟩ := Outcome.bind_eq_ok h
  cases tagged_ok hrest
  split at h
  · cases h
  · rename_i e hfind
    obtain rfl := version_ok h
    have hhead : (headed "compiler-version" rest).head? = some (writeVersion "compiler-version" v) :=
      List.head?_filter.trans hfind
    cases hheaded : headed "compiler-version" rest with
    | nil =>
      rw [hheaded] at hhead
      cases hhead
    | cons e es =>
      rw [hheaded] at hhead
      cases hhead
      cases es with
      | nil => exact iff_of_true rfl (Nat.le_refl _)
      | cons e' es =>
        refine iff_of_false (fun h => by cases h) (fun h => ?_)
        simp only [List.length_cons] at h
        omega

/-- What the parser makes of an artifact spells it when the artifact is exact, and
only then. -/
theorem parse_spells_iff {rest : List Sexp} {ir : AnalyzedIr}
    (h : parse (.list (.sym "analyzed-ir" :: rest)) = .ok ir) :
    Spells rest ir ↔ ExactProgram rest := by
  obtain ⟨compiler, hcompiler, h⟩ := Outcome.bind_eq_ok h
  obtain ⟨rest', hrest, h⟩ := Outcome.bind_eq_ok h
  cases tagged_ok hrest
  obtain ⟨acc, hacc, h⟩ := Outcome.bind_eq_ok h
  obtain ⟨language, hlanguage, h⟩ := Outcome.bind_eq_ok h
  obtain ⟨runtime, hruntime, rfl⟩ := Outcome.map_eq_ok h
  have hread := readSections_ok hacc
  obtain ⟨vs, hvs, hlast⟩ := hread.language
  obtain ⟨ws, hws, hlast'⟩ := hread.runtime
  obtain ⟨es, hes, hexports⟩ := hread.exports
  obtain ⟨ts, hts, htypes⟩ := hread.contractTypes
  obtain ⟨ps, hps, helements⟩ := hread.elements
  rw [Option.or_none, required_ok hlanguage] at hlast
  rw [Option.or_none, required_ok hruntime] at hlast'
  rw [List.nil_append] at hes hts hps
  have hcompilerIff := compilerVersion_once_iff hcompiler
  have hlanguageIff := version_once_iff hvs hlast.symm
  have hruntimeIff := version_once_iff hws hlast'.symm
  have htypesIff := all_write_iff htypes
  have helementsIff := all_write_iff helements
  constructor
  · intro hspells
    exact ⟨hcompilerIff.mp hspells.compiler, hlanguageIff.mp hspells.language,
      hruntimeIff.mp hspells.runtime, htypesIff.mp (hts ▸ hspells.contractTypes),
      helementsIff.mp (hps ▸ hspells.elements)⟩
  · intro hexact
    exact ⟨hcompilerIff.mpr hexact.compiler, hlanguageIff.mpr hexact.language,
      hruntimeIff.mpr hexact.runtime, hes ▸ hexports, hts ▸ htypesIff.mpr hexact.contractTypes,
      hps ▸ helementsIff.mpr hexact.elements⟩

theorem parse_ne_panic {rest : List Sexp} (h : ExactProgram rest) :
    parse (.list (.sym "analyzed-ir" :: rest)) ≠ .panic := by
  refine Outcome.bind_ne_panic (compilerVersion_ne_panic _) fun _ _ =>
    Outcome.bind_ne_panic (tagged_ne_panic _ _ _) fun rest' hrest => ?_
  cases tagged_ok hrest
  exact Outcome.bind_ne_panic (readSections_ne_panic h.contractTypes h.elements) fun _ _ =>
    Outcome.bind_ne_panic (required_ne_panic _ _) fun _ _ =>
      Outcome.map_ne_panic (required_ne_panic _ _)

/-- An outcome for an artifact that is an error, or a model that spells it. -/
def ProgramFailsClosed (s : Sexp) (o : Outcome AnalyzedIr) : Prop :=
  o ≠ .panic ∧ ∀ ir, o = .ok ir → ∃ rest, s = .list (.sym "analyzed-ir" :: rest) ∧ Spells rest ir

theorem parse_failsClosed_iff (s : Sexp) :
    ProgramFailsClosed s (parse s) ↔ (∃ e, parse s = .error e) ∨
      ∃ rest, s = .list (.sym "analyzed-ir" :: rest) ∧ ExactProgram rest := by
  cases hs : parse s with
  | error e => exact iff_of_true ⟨fun h => (by cases h), fun _ h => (by cases h)⟩ (.inl ⟨e, rfl⟩)
  | panic =>
    refine iff_of_false (fun h => h.1 rfl) ?_
    rintro (⟨e, h⟩ | ⟨rest, rfl, hexact⟩)
    · cases h
    · exact parse_ne_panic hexact hs
  | ok ir =>
    obtain ⟨_, _, h⟩ := Outcome.bind_eq_ok hs
    obtain ⟨rest, hrest, -⟩ := Outcome.bind_eq_ok h
    obtain rfl := tagged_ok hrest
    have hiff := parse_spells_iff hs
    constructor
    · intro hclosed
      obtain ⟨rest', heq, hspells⟩ := hclosed.2 ir rfl
      cases heq
      exact .inr ⟨rest, rfl, hiff.mp hspells⟩
    · rintro (⟨e, h⟩ | ⟨rest', heq, hexact⟩)
      · cases h
      · cases heq
        refine ⟨fun h => (by cases h), fun ir' h => ?_⟩
        cases h
        exact ⟨rest, rfl, hiff.mpr hexact⟩

/-- The parser fails closed on what it refuses and on exact trees, and on nothing
else: as any kind of element, and as an artifact. -/
theorem parser_failsClosed_iff (s : Sexp) :
    (∀ kind, FailsClosed s (read s kind) ↔ (∃ e, read s kind = .error e) ∨ Exact s kind) ∧
      (ProgramFailsClosed s (parse s) ↔ (∃ e, parse s = .error e) ∨
        ∃ rest, s = .list (.sym "analyzed-ir" :: rest) ∧ ExactProgram rest) :=
  ⟨read_failsClosed_iff s, parse_failsClosed_iff s⟩

/-- A field type without its field panics, and a Boolean with two elements too many
is a Boolean. -/
theorem read_type_open :
    read (.list [.sym "tfield"]) .type = .panic ∧
      read (.list [.sym "tboolean", .int 1, .int 2]) .type = .ok (.make .typeBoolean []) ∧
      (Node.make .typeBoolean []).write ≠ .list [.sym "tboolean", .int 1, .int 2] := by
  refine ⟨rfl, rfl, fun h => ?_⟩
  simp [Node.write, Node.writeAll, Variant.heads] at h

end Program

end MidnightRs.AnalyzedIr
