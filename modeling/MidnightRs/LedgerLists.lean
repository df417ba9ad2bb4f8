import MidnightRs.InitialStates
import MidnightRs.CompactLayout

/-!
A list of the ledger as a chain of `[head, tail, length]` nodes. The eager accessor reads
the whole state. The lazy getter asks the node for one path, which walks as many tails as
the node's limit allows, and leaves the remaining ones to the accessor.
-/
namespace MidnightRs.TypedState

open MidnightRs.Compact

/-- The slot of a list node that holds its first element. -/
def listHeadSlot : ℕ := 0

/-- The slot of a list node that holds the node of the remaining elements. -/
def listTailSlot : ℕ := 1

/-- The slot of a list node that holds the element count. -/
def listLengthSlot : ℕ := 2

/-- The most keys that the node takes in one path. -/
def maxQueryPathDepth : ℕ := 16

def ofU64 (n : ℕ) : AlignedValue := .single (trim (toLeBytes 8 n)) (.bytes 8)

/-- How a `u64` is read back from the atoms that it is written as. -/
structure U64Reader where
  read : List Atom → Except String ℕ
  reads : ∀ n < 2 ^ 64, read (ofU64 n).value = .ok n

inductive LazyError where
  | provider (message : String)
  | state (e : StateError)
  | queryFailed (message : String)
  | noValue
deriving DecidableEq, Repr

/-- The node's side of a query: how a key is written, and what a key finds below a value.
An index finds the slot of an array, and nothing is below a `Null`. -/
structure StateNode (Tree : Type) where
  Key : Type
  valueToQueryKey : AlignedValue → Key
  step : StateValue Tree → Key → Except LazyError (StateValue Tree)
  refusal : String
  finds_slot : ∀ (elements : List (StateValue Tree)) (i : ℕ) (element : StateValue Tree),
    elements[i]? = some element → i < 256 →
    step (.array elements) (valueToQueryKey (ofU8 i)) = .ok element
  finds_nothing : ∀ (key : Key) (found : StateValue Tree), step .null key ≠ .ok found

variable {Tree T : Type}

namespace StateNode

variable (node : StateNode Tree)

def walk (root : StateValue Tree) (path : List node.Key) : Except LazyError (StateValue Tree) :=
  path.foldlM node.step root

/-- The node refuses the whole call when any path has too many keys. -/
def queryContractState (root : StateValue Tree) (paths : List (List node.Key)) :
    Except LazyError (List (Except LazyError (StateValue Tree))) :=
  if paths.all (fun path => path.length ≤ maxQueryPathDepth) then .ok (paths.map (node.walk root))
  else .error (.provider node.refusal)

/-- The key of an index, or `none` for the panic on one that a byte cannot hold. -/
def indexToQueryKey (index : ℕ) : Option node.Key :=
  if index < 256 then some (node.valueToQueryKey (ofU8 index)) else none

def buildQueryPath (indices : List ℕ) : Option (List node.Key) :=
  indices.mapM node.indexToQueryKey

def listLengthPath (field : List ℕ) : Option (List node.Key) := do
  let path ← node.buildQueryPath field
  let key ← node.indexToQueryKey listLengthSlot
  some (path ++ [key])

/-- The path toward an element. With no `tailsLeft` it ends at the element's cell, else at
a list node in which the element has that index. -/
structure ListElementPath where
  path : List node.Key
  tailsLeft : Option ℕ

def listElementPath (field : List ℕ) (index : ℕ) : Option node.ListElementPath := do
  let path ← node.buildQueryPath field
  let tail ← node.indexToQueryKey listTailSlot
  let head ← node.indexToQueryKey listHeadSlot
  let maxTails := maxQueryPathDepth - field.length
  if index < maxTails then
    some ⟨path ++ List.replicate index tail ++ [head], none⟩
  else
    some ⟨path ++ List.replicate maxTails tail, some (index - maxTails)⟩

end StateNode

section Accessor

variable (u64 : U64Reader) (decode : List Atom → Except String T)

structure ListAccessor (Tree : Type) where
  node : StateValue Tree
  len : ℕ

def listHead (node : StateValue Tree) : Except StateError T :=
  getField node listHeadSlot >>= cellAs decode

namespace ListAccessor

def fromState (sv : StateValue Tree) : Except StateError (ListAccessor Tree) := do
  let cell ← getField sv listLengthSlot
  let len ← cellAs u64.read cell
  .ok ⟨sv, len⟩

def get (list : ListAccessor Tree) (index : ℕ) : Option (Except StateError T) :=
  if list.len ≤ index then none
  else
    let node := (List.range index).foldlM (fun node _ => getField node listTailSlot) list.node
    some (node >>= listHead decode)

/-- The items of the iterator with `n` of them still to come. -/
def iterFrom : ℕ → Option (Except StateError (StateValue Tree)) → List (Except StateError T)
  | 0, _ => []
  | _ + 1, none => []
  | n + 1, some (.error e) => .error e :: iterFrom n none
  | n + 1, some (.ok node) =>
    let head := listHead decode node
    head :: iterFrom n (if head.isOk then some (getField node listTailSlot) else none)

def iter (list : ListAccessor Tree) : List (Except StateError T) :=
  iterFrom decode list.len (some (.ok list.node))

end ListAccessor

/-- The eager accessor of a list field on the whole state. -/
def readList (root : StateValue Tree) (field : List ℕ) : Except StateError (ListAccessor Tree) :=
  getFieldPath root field >>= ListAccessor.fromState u64

/-- The element in what the path toward it found, or `none` for its absence. -/
def readElement (tailsLeft : Option ℕ) (sv : StateValue Tree) : Except StateError (Option T) :=
  match tailsLeft with
  | none => (cellAs decode sv).map some
  | some n => do
    let list ← ListAccessor.fromState u64 sv
    match list.get decode n with
    | none => .ok none
    | some element => element.map some

/-- What a lazy getter asks for, and what it makes of the answers. `none` is a panic. -/
def lazyList (node : StateNode Tree) (root : StateValue Tree) (field : List ℕ) (index : ℕ) :
    Option (Except LazyError (Option T)) := do
  let target ← node.listElementPath field index
  let lengthPath ← node.listLengthPath field
  some do
    let results ← node.queryContractState root [lengthPath, target.path]
    match results with
    | [length, element] =>
      let sv ← length
      let len ← (cellAs u64.read sv).mapError .state
      if len ≤ index then .ok none
      else
        let sv ← element
        match target.tailsLeft with
        | none => ((cellAs decode sv).map some).mapError .state
        | some n => do
          let list ← (ListAccessor.fromState u64 sv).mapError .state
          match list.get decode n with
          | none => .error (.state (.indexOutOfBounds n))
          | some value => (value.map some).mapError .state
    | _ => .error .noValue

end Accessor

/-- The chain of nodes of a list, whose empty node holds two `Null`s. -/
def listState : List AlignedValue → StateValue Tree
  | [] => .array [.null, .null, .cell (ofU64 0)]
  | av :: rest => .array [.cell av, listState rest, .cell (ofU64 (rest.length + 1))]

/-- The elements of a list field, the one pushed last in front. Their count is a `u64`. -/
structure LedgerList where
  elements : List AlignedValue
  counted : elements.length < 2 ^ 64

def LedgerList.state (list : LedgerList) : StateValue Tree := listState list.elements

/-- The value of an element as a type reads it. -/
def readCell (decode : List Atom → Except String T) (av : AlignedValue) : Except StateError T :=
  (decode av.value).mapError .conversion

/-- The items up to the first error, with that error. -/
def throughFirstError {E : Type} : List (Except E T) → List (Except E T)
  | [] => []
  | .error e :: _ => [.error e]
  | .ok v :: rest => .ok v :: throughFirstError rest

theorem throughFirstError_of_ok {E : Type} (items : List (Except E T))
    (h : ∀ item ∈ items, item.isOk = true) : throughFirstError items = items := by
  induction items with
  | nil => rfl
  | cons item rest ih =>
    cases item with
    | error e => simp [Except.isOk, Except.toBool] at h
    | ok v => rw [throughFirstError, ih (fun item hitem => h item (List.mem_cons_of_mem _ hitem))]

section Chain

variable (decode : List Atom → Except String T)

@[simp] theorem cellAs_cell (av : AlignedValue) :
    cellAs decode (.cell av : StateValue Tree) = readCell decode av := rfl

theorem getField_tail (av : AlignedValue) (rest : List AlignedValue) :
    getField (listState (av :: rest) : StateValue Tree) listTailSlot = .ok (listState rest) := rfl

theorem getField_length (elements : List AlignedValue) :
    getField (listState elements : StateValue Tree) listLengthSlot =
      .ok (.cell (ofU64 elements.length)) := by
  cases elements <;> rfl

theorem listHead_cons (av : AlignedValue) (rest : List AlignedValue) :
    listHead decode (listState (av :: rest) : StateValue Tree) = readCell decode av := rfl

theorem getFieldPath_tails (n : ℕ) (elements : List AlignedValue) (h : n ≤ elements.length) :
    getFieldPath (listState elements : StateValue Tree) (List.replicate n listTailSlot) =
      .ok (listState (elements.drop n)) := by
  induction n generalizing elements with
  | zero => rfl
  | succ n ih =>
    cases elements with
    | nil => simp at h
    | cons av rest =>
      rw [List.replicate_succ, getFieldPath_cons, getField_tail]
      exact ih rest (by simpa using h)

/-- The accessor's walk is the path of that many tails. -/
theorem foldlM_tails (sv : StateValue Tree) (steps : List ℕ) :
    steps.foldlM (fun node _ => getField node listTailSlot) sv =
      getFieldPath sv (List.replicate steps.length listTailSlot) := by
  induction steps generalizing sv with
  | nil => rfl
  | cons step rest ih =>
    rw [List.length_cons, List.replicate_succ, getFieldPath_cons, List.foldlM_cons]
    exact congrArg _ (funext fun next => ih next)

variable (u64 : U64Reader)

theorem fromState_listState (elements : List AlignedValue) (h : elements.length < 2 ^ 64) :
    ListAccessor.fromState u64 (listState elements : StateValue Tree) =
      .ok ⟨listState elements, elements.length⟩ := by
  unfold ListAccessor.fromState
  rw [getField_length]
  have hread : cellAs u64.read (.cell (ofU64 elements.length) : StateValue Tree) =
      .ok elements.length := by
    rw [cellAs_cell, readCell, u64.reads _ h]
    rfl
  change (cellAs u64.read (.cell (ofU64 elements.length) : StateValue Tree) >>= _) = _
  rw [hread]
  rfl

/-- Each index below the length reads its own element, and any other one reads nothing. -/
theorem get_listState (elements : List AlignedValue) (index : ℕ) :
    (⟨listState elements, elements.length⟩ : ListAccessor Tree).get decode index =
      elements[index]?.map (readCell decode) := by
  unfold ListAccessor.get
  by_cases hlt : index < elements.length
  · rw [if_neg (by simpa using hlt), List.getElem?_eq_getElem hlt]
    simp only [foldlM_tails, List.length_range]
    rw [getFieldPath_tails index elements hlt.le, List.drop_eq_getElem_cons hlt]
    rfl
  · rw [if_pos (Nat.le_of_not_lt hlt), List.getElem?_eq_none (Nat.le_of_not_lt hlt)]
    rfl

theorem iterFrom_none (n : ℕ) :
    ListAccessor.iterFrom decode n (none : Option (Except StateError (StateValue Tree))) = [] := by
  cases n <;> rfl

theorem iterFrom_listState (elements : List AlignedValue) :
    ListAccessor.iterFrom decode elements.length
        (some (.ok (listState elements : StateValue Tree))) =
      throughFirstError (elements.map (readCell decode)) := by
  induction elements with
  | nil => rfl
  | cons av rest ih =>
    rw [List.length_cons, ListAccessor.iterFrom, List.map_cons]
    obtain ⟨item, hitem⟩ : ∃ item, readCell decode av = item := ⟨_, rfl⟩
    simp only [listHead_cons, getField_tail, hitem]
    cases item with
    | error e =>
      simp only [Except.isOk, Except.toBool, Bool.false_eq_true, if_false, iterFrom_none]
      rfl
    | ok v =>
      simp only [Except.isOk, Except.toBool, if_true, throughFirstError]
      rw [ih]

theorem map_get_range (elements : List AlignedValue) :
    (List.range elements.length).map
        ((⟨listState elements, elements.length⟩ : ListAccessor Tree).get decode) =
      (elements.map (readCell decode)).map some := by
  apply List.ext_getElem
  · simp
  · intro i hi hi'
    have hlt : i < elements.length := by simpa using hi
    simp [get_listState, hlt]

end Chain

section Paths

variable (node : StateNode Tree)

/-- The key of an index that a byte holds. -/
def keyOf (index : ℕ) : node.Key := node.valueToQueryKey (ofU8 index)

theorem buildQueryPath_eq {indices : List ℕ} (h : ∀ i ∈ indices, i < 256) :
    node.buildQueryPath indices = some (indices.map (keyOf node)) := by
  induction indices with
  | nil => rfl
  | cons i rest ih =>
    have hi : node.indexToQueryKey i = some (keyOf node i) :=
      if_pos (h i List.mem_cons_self)
    have hrest := ih (fun j hj => h j (List.mem_cons_of_mem _ hj))
    unfold StateNode.buildQueryPath at hrest ⊢
    rw [List.mapM_cons, hi, hrest]
    rfl

theorem listLengthPath_eq {field : List ℕ} (h : ∀ i ∈ field, i < 256) :
    node.listLengthPath field = some (field.map (keyOf node) ++ [keyOf node listLengthSlot]) := by
  unfold StateNode.listLengthPath
  rw [buildQueryPath_eq node h]
  rfl

theorem listElementPath_eq {field : List ℕ} (h : ∀ i ∈ field, i < 256) (index : ℕ) :
    node.listElementPath field index = some
      (if index < maxQueryPathDepth - field.length then
        ⟨field.map (keyOf node) ++ List.replicate index (keyOf node listTailSlot) ++
          [keyOf node listHeadSlot], none⟩
      else
        ⟨field.map (keyOf node) ++
            List.replicate (maxQueryPathDepth - field.length) (keyOf node listTailSlot),
          some (index - (maxQueryPathDepth - field.length))⟩) := by
  unfold StateNode.listElementPath
  rw [buildQueryPath_eq node h]
  change (if _ then _ else _) = _
  split <;> rfl

/-- A path stays within the limit when the field's own path does. -/
theorem listElementPath_length {field : List ℕ} {index : ℕ} {target : node.ListElementPath}
    (h : ∀ i ∈ field, i < 256) (htarget : node.listElementPath field index = some target) :
    target.path.length ≤ maxQueryPathDepth ↔ field.length ≤ maxQueryPathDepth := by
  rw [listElementPath_eq node h] at htarget
  obtain rfl := Option.some.inj htarget
  split
  · simp only [List.length_append, List.length_map, List.length_replicate, List.length_singleton]
    omega
  · simp only [List.length_append, List.length_map, List.length_replicate]
    omega

theorem walk_append (root : StateValue Tree) (path rest : List node.Key) :
    node.walk root (path ++ rest) = node.walk root path >>= fun sv => node.walk sv rest :=
  List.foldlM_append

/-- The node follows a path of indices as the bindings do on the whole state. -/
theorem walk_of_getFieldPath {path : List ℕ} (h : ∀ i ∈ path, i < 256) {root sv : StateValue Tree}
    (hpath : getFieldPath root path = .ok sv) :
    node.walk root (path.map (keyOf node)) = .ok sv := by
  induction path generalizing root with
  | nil =>
    obtain rfl := Except.ok.inj hpath
    rfl
  | cons i rest ih =>
    rw [getFieldPath_cons] at hpath
    cases hfield : getField root i with
    | error e =>
      rw [hfield] at hpath
      cases hpath
    | ok next =>
      rw [hfield] at hpath
      obtain ⟨elements, rfl, hi⟩ := getField_ok_iff.mp hfield
      have hstep := node.finds_slot elements i next hi (h i List.mem_cons_self)
      have hrest := ih (fun j hj => h j (List.mem_cons_of_mem _ hj)) hpath
      unfold StateNode.walk at hrest ⊢
      rw [List.map_cons, List.foldlM_cons, keyOf, hstep]
      exact hrest

theorem walk_null {key : node.Key} {rest : List node.Key} {sv : StateValue Tree}
    (h : node.walk .null (key :: rest) = .ok sv) : False := by
  unfold StateNode.walk at h
  rw [List.foldlM_cons] at h
  cases hstep : node.step .null key with
  | error e =>
    rw [hstep] at h
    cases h
  | ok found => exact node.finds_nothing key found hstep

/-- Past the last element there is one `Null`, and nothing below it. -/
theorem walk_tails {n : ℕ} {elements : List AlignedValue} {rest : List node.Key}
    {sv : StateValue Tree} (h : elements.length < n)
    (hwalk : node.walk (listState elements)
      (List.replicate n (keyOf node listTailSlot) ++ rest) = .ok sv) :
    n = elements.length + 1 ∧ rest = [] ∧ sv = .null := by
  induction elements generalizing n with
  | nil =>
    obtain ⟨n, rfl⟩ : ∃ k, n = k + 1 := ⟨n - 1, by simp at h; omega⟩
    have hstep : node.step (listState []) (keyOf node listTailSlot) = .ok .null :=
      node.finds_slot _ listTailSlot .null rfl (by decide)
    unfold StateNode.walk at hwalk
    rw [List.replicate_succ, List.cons_append, List.foldlM_cons, hstep] at hwalk
    change node.walk .null _ = _ at hwalk
    cases hkeys : List.replicate n (keyOf node listTailSlot) ++ rest with
    | cons key keys =>
      rw [hkeys] at hwalk
      exact (walk_null node hwalk).elim
    | nil =>
      rw [hkeys] at hwalk
      obtain ⟨hn, hrest⟩ := List.append_eq_nil_iff.mp hkeys
      refine ⟨?_, hrest, (Except.ok.inj hwalk).symm⟩
      rw [List.replicate_eq_nil_iff] at hn
      rw [hn]
      rfl
  | cons av tail ih =>
    obtain ⟨n, rfl⟩ : ∃ k, n = k + 1 := ⟨n - 1, by simp at h; omega⟩
    have hstep : node.step (listState (av :: tail)) (keyOf node listTailSlot) =
        .ok (listState tail) := node.finds_slot _ listTailSlot _ rfl (by decide)
    unfold StateNode.walk at hwalk
    rw [List.replicate_succ, List.cons_append, List.foldlM_cons, hstep] at hwalk
    obtain ⟨hn, hrest, hsv⟩ := ih (by simpa using h) hwalk
    exact ⟨by rw [hn, List.length_cons], hrest, hsv⟩

end Paths

section Reads

variable (u64 : U64Reader) (decode : List Atom → Except String T) (node : StateNode Tree)
variable {root : StateValue Tree} {field : List ℕ} (list : LedgerList)

theorem readList_eq (hfield : getFieldPath root field = .ok list.state) :
    readList u64 root field = .ok ⟨list.state, list.elements.length⟩ := by
  unfold readList
  rw [hfield]
  exact fromState_listState u64 list.elements list.counted

variable (hkeys : ∀ i ∈ field, i < 256) (hfield : getFieldPath root field = .ok list.state)

include hkeys hfield

theorem walk_node {n : ℕ} (h : n ≤ list.elements.length) :
    node.walk root (field.map (keyOf node) ++ List.replicate n (keyOf node listTailSlot)) =
      .ok (listState (list.elements.drop n)) := by
  have htails : ∀ i ∈ List.replicate n listTailSlot, i < 256 := by
    intro i hi
    rw [List.eq_of_mem_replicate hi]
    decide
  have hwalk := walk_of_getFieldPath node htails
    (getFieldPath_tails n list.elements h)
  rw [List.map_replicate] at hwalk
  rw [walk_append, walk_of_getFieldPath node hkeys hfield]
  exact hwalk

theorem walk_length :
    node.walk root (field.map (keyOf node) ++ [keyOf node listLengthSlot]) =
      .ok (.cell (ofU64 list.elements.length)) := by
  have hlength : ∀ i ∈ [listLengthSlot], i < 256 := by decide
  have hcell : getFieldPath (listState list.elements : StateValue Tree) [listLengthSlot] =
      .ok (.cell (ofU64 list.elements.length)) := by
    rw [getFieldPath_cons, getField_length]
    rfl
  rw [walk_append, walk_of_getFieldPath node hkeys hfield]
  exact walk_of_getFieldPath node hlength hcell

/-- What the path finds reads as the element. -/
theorem readElement_found {index : ℕ} {av : AlignedValue} (h : list.elements[index]? = some av)
    {target : node.ListElementPath} (htarget : node.listElementPath field index = some target) :
    ∃ sv, node.walk root target.path = .ok sv ∧
      readElement u64 decode target.tailsLeft sv = (readCell decode av).map some := by
  obtain ⟨hlt, hav⟩ := List.getElem?_eq_some_iff.mp h
  rw [listElementPath_eq node hkeys] at htarget
  obtain rfl := Option.some.inj htarget
  split
  · refine ⟨.cell av, ?_, rfl⟩
    simp only
    rw [walk_append, walk_node node list hkeys hfield hlt.le, List.drop_eq_getElem_cons hlt, hav]
    exact walk_of_getFieldPath node (by decide : ∀ i ∈ [listHeadSlot], i < 256) rfl
  · rename_i hdeep
    have hle : maxQueryPathDepth - field.length ≤ list.elements.length := by omega
    refine ⟨_, walk_node node list hkeys hfield hle, ?_⟩
    simp only [readElement]
    rw [fromState_listState u64 _ (lt_of_le_of_lt (by simp) list.counted)]
    change (match ListAccessor.get decode _ _ with | none => _ | some element => _) = _
    rw [get_listState, List.getElem?_drop, Nat.add_sub_cancel' (Nat.le_of_not_lt hdeep), h]
    rfl

/-- Past the end the path finds nothing, a `Null`, or a node that is too short. -/
theorem readElement_absent {index : ℕ} (h : list.elements[index]? = none)
    {target : node.ListElementPath} (htarget : node.listElementPath field index = some target)
    {sv : StateValue Tree} (hwalk : node.walk root target.path = .ok sv) (v : T) :
    readElement u64 decode target.tailsLeft sv ≠ .ok (some v) := by
  have hlen := List.getElem?_eq_none_iff.mp h
  rw [listElementPath_eq node hkeys] at htarget
  obtain rfl := Option.some.inj htarget
  split at hwalk
  · rename_i hshallow
    rw [if_pos hshallow]
    simp only at hwalk
    rcases Nat.eq_or_lt_of_le hlen with heq | hlt
    · rw [walk_append, walk_node node list hkeys hfield heq.ge, List.drop_of_length_le hlen] at hwalk
      have hhead := walk_of_getFieldPath node (by decide : ∀ i ∈ [listHeadSlot], i < 256)
        (show getFieldPath (listState [] : StateValue Tree) [listHeadSlot] = .ok .null from rfl)
      obtain rfl := Except.ok.inj (hhead.symm.trans hwalk)
      intro hsome
      cases hsome
    · rw [List.append_assoc, walk_append, walk_of_getFieldPath node hkeys hfield] at hwalk
      obtain ⟨-, hnil, -⟩ := walk_tails node hlt hwalk
      cases hnil
  · rename_i hdeep
    rw [if_neg hdeep]
    by_cases hle : maxQueryPathDepth - field.length ≤ list.elements.length
    · have hnode := walk_node node list hkeys hfield hle
      simp only at hwalk
      rw [hnode] at hwalk
      obtain rfl := Except.ok.inj hwalk
      simp only [readElement]
      rw [fromState_listState u64 _ (lt_of_le_of_lt (by simp) list.counted)]
      change (match ListAccessor.get decode _ _ with | none => _ | some element => _) ≠ _
      rw [get_listState, List.getElem?_drop, Nat.add_sub_cancel' (Nat.le_of_not_lt hdeep), h]
      intro hsome
      cases hsome
    · simp only at hwalk
      rw [walk_append, walk_of_getFieldPath node hkeys hfield,
        ← List.append_nil (List.replicate _ (keyOf node listTailSlot))] at hwalk
      obtain ⟨-, -, rfl⟩ := walk_tails node (Nat.lt_of_not_le hle) hwalk
      intro hsome
      cases hsome

/-- A getter whose field leaves a key for the length reads what the accessor reads. -/
theorem lazyList_eq (hdepth : field.length < maxQueryPathDepth) (index : ℕ) :
    lazyList u64 decode node root field index = some
      (match list.elements[index]? with
      | none => .ok none
      | some av => ((readCell decode av).map some).mapError .state) := by
  obtain ⟨target, htarget⟩ : ∃ target, node.listElementPath field index = some target :=
    ⟨_, listElementPath_eq node hkeys index⟩
  have hpath := (listElementPath_length node hkeys htarget).mpr hdepth.le
  have hquery : node.queryContractState root
      [field.map (keyOf node) ++ [keyOf node listLengthSlot], target.path] =
      .ok [.ok (.cell (ofU64 list.elements.length)), node.walk root target.path] := by
    have hlengths : [field.map (keyOf node) ++ [keyOf node listLengthSlot], target.path].all
        (fun path => path.length ≤ maxQueryPathDepth) = true := by
      simpa [hpath] using Nat.succ_le_of_lt hdepth
    unfold StateNode.queryContractState
    rw [if_pos hlengths, List.map_cons, walk_length node list hkeys hfield]
    rfl
  have hread : cellAs u64.read (.cell (ofU64 list.elements.length) : StateValue Tree) =
      .ok list.elements.length := by
    rw [cellAs_cell, readCell, u64.reads _ list.counted]
    rfl
  unfold lazyList
  rw [htarget, listLengthPath_eq node hkeys]
  simp only [Option.bind_eq_bind, Option.bind_some, hquery]
  congr 1
  change ((cellAs u64.read (.cell (ofU64 list.elements.length))).mapError LazyError.state >>= _) = _
  rw [hread]
  change (if list.elements.length ≤ index then _ else _) = _
  cases hav : list.elements[index]? with
  | none => rw [if_pos (List.getElem?_eq_none_iff.mp hav)]
  | some av =>
    obtain ⟨hlt, -⟩ := List.getElem?_eq_some_iff.mp hav
    obtain ⟨sv, hwalk, hsv⟩ := readElement_found u64 decode node list hkeys hfield hav htarget
    rw [if_neg (Nat.not_le_of_lt hlt), hwalk]
    change (match target.tailsLeft with | none => _ | some n => _) = _
    cases htails : target.tailsLeft with
    | none =>
      rw [htails] at hsv
      exact congrArg (Except.mapError LazyError.state) hsv
    | some n =>
      rw [htails] at hsv
      simp only [readElement] at hsv ⊢
      cases hlist : ListAccessor.fromState u64 sv with
      | error e =>
        rw [hlist] at hsv
        exact congrArg (Except.mapError LazyError.state) hsv
      | ok accessor =>
        rw [hlist] at hsv
        change (match accessor.get decode n with | none => _ | some value => _) = _ at hsv
        change (match accessor.get decode n with | none => _ | some value => _) = _
        cases hget : accessor.get decode n with
        | none =>
          rw [hget] at hsv
          cases hcell : readCell decode av <;> rw [hcell] at hsv <;> cases hsv
        | some value =>
          rw [hget] at hsv
          exact congrArg (Except.mapError LazyError.state) hsv

/-- What the node finds on the path toward an element reads as the whole state's accessor
reads it, the path is as long as the limit lets it be, and the iterator yields what `get` does. -/
theorem list_reads_agree (index : ℕ) :
    ∃ (accessor : ListAccessor Tree) (target : node.ListElementPath),
      readList u64 root field = .ok accessor ∧ node.listElementPath field index = some target ∧
      (∀ i, accessor.get decode i = list.elements[i]?.map (readCell decode)) ∧
      (target.path.length ≤ maxQueryPathDepth ↔ field.length ≤ maxQueryPathDepth) ∧
      (∀ item, accessor.get decode index = some item → ∃ sv,
        node.walk root target.path = .ok sv ∧
        readElement u64 decode target.tailsLeft sv = item.map some) ∧
      (accessor.get decode index = none → ∀ sv v, node.walk root target.path = .ok sv →
        readElement u64 decode target.tailsLeft sv ≠ .ok (some v)) ∧
      (field.length < maxQueryPathDepth → lazyList u64 decode node root field index = some
        (match accessor.get decode index with
        | none => .ok none
        | some item => (item.map some).mapError .state)) ∧
      ∃ items, items.map some = (List.range accessor.len).map (accessor.get decode) ∧
        accessor.iter decode = throughFirstError items ∧
        ((∀ item ∈ items, item.isOk = true) → accessor.iter decode = items) := by
  have hget := @get_listState Tree T decode list.elements
  obtain ⟨target, htarget⟩ : ∃ target, node.listElementPath field index = some target :=
    ⟨_, listElementPath_eq node hkeys index⟩
  refine ⟨⟨list.state, list.elements.length⟩, target, readList_eq u64 list hfield, htarget, hget,
    listElementPath_length node hkeys htarget, ?_, ?_, ?_, list.elements.map (readCell decode),
    (map_get_range decode list.elements).symm, iterFrom_listState decode list.elements, ?_⟩
  · intro item hitem
    obtain ⟨av, hav, rfl⟩ := Option.map_eq_some_iff.mp ((hget index).symm.trans hitem)
    exact readElement_found u64 decode node list hkeys hfield hav htarget
  · intro hnone sv v hwalk
    have habsent := Option.map_eq_none_iff.mp ((hget index).symm.trans hnone)
    exact readElement_absent u64 decode node list hkeys hfield habsent htarget hwalk v
  · intro hdepth
    have hitem : (⟨list.state, list.elements.length⟩ : ListAccessor Tree).get decode index = _ :=
      hget index
    rw [lazyList_eq u64 decode node list hkeys hfield hdepth, hitem]
    cases list.elements[index]? <;> rfl
  · intro hok
    have hiter := @iterFrom_listState Tree T decode list.elements
    exact hiter.trans (throughFirstError_of_ok _ hok)

end Reads

section Samples

def plainU64 : U64Reader where
  read
    | [a] => if a.length ≤ 8 then .ok (ofLeBytes a) else .error "u64"
    | _ => .error "u64"
  reads := by
    intro n hn
    have hlen : (trim (toLeBytes 8 n)).length ≤ 8 :=
      (length_trim_le _).trans (length_toLeBytes 8 n).le
    change (if (trim (toLeBytes 8 n)).length ≤ 8 then _ else _) = _
    rw [if_pos hlen, ofLeBytes_trim, ofLeBytes_toLeBytes 8 n (by simpa using hn)]

def plainBool : List Atom → Except String Bool
  | [[]] => .ok false
  | [[1]] => .ok true
  | _ => .error "bool"

/-- A node that reads a key as the number of its first atom. -/
def plainNode : StateNode Unit where
  Key := AlignedValue
  valueToQueryKey := id
  step
    | .array elements, key =>
      match elements[ofLeBytes (key.value.headD [])]? with
      | some element => .ok element
      | none => .error .noValue
    | _, _ => .error .noValue
  refusal := "path too deep"
  finds_slot := by
    intro elements i element helement hi
    have hkey : ofLeBytes ((ofU8 i).value.headD []) = i := by
      change ofLeBytes (trim (toLeBytes 1 i)) = i
      rw [ofLeBytes_trim, ofLeBytes_toLeBytes 1 i (by simpa using hi)]
    simp only [id_eq, hkey, helement]
  finds_nothing := by
    intro key found h
    cases h

theorem onlyField (list : LedgerList) :
    getFieldPath (.array [list.state] : StateValue Unit) [0] = .ok list.state := rfl

def threeBooleans : LedgerList := ⟨[ofBool true, ofBool false, ofBool true], by decide⟩

theorem list_reads_agree_three :
    ∃ (accessor : ListAccessor Unit) (target : plainNode.ListElementPath),
      readList plainU64 (.array [threeBooleans.state]) [0] = .ok accessor ∧
      plainNode.listElementPath [0] 1 = some target ∧
      target.path.length ≤ maxQueryPathDepth ∧
      accessor.get plainBool 1 = some (.ok false) ∧
      lazyList plainU64 plainBool plainNode (.array [threeBooleans.state]) [0] 1 =
        some (.ok (some false)) ∧
      accessor.iter plainBool = [.ok true, .ok false, .ok true] := by
  obtain ⟨accessor, target, hread, htarget, hget, hpath, -, -, hlazy, items, hitems, hiter, -⟩ :=
    list_reads_agree plainU64 plainBool plainNode threeBooleans
      (by decide : ∀ i ∈ [0], i < 256) (onlyField threeBooleans) 1
  have hfound : accessor.get plainBool 1 = some (.ok false) := hget 1
  have hlen : accessor.len = 3 := by
    rw [readList_eq plainU64 threeBooleans (onlyField threeBooleans)] at hread
    rw [← Except.ok.inj hread]
    rfl
  refine ⟨accessor, target, hread, htarget, hpath.mpr (by decide), hfound, ?_, ?_⟩
  · rw [hlazy (by decide), hfound]
    rfl
  · rw [hlen, show accessor.get plainBool = _ from funext hget] at hitems
    have hall : items.map some = [.ok true, .ok false, .ok true].map some := hitems
    rw [hiter, List.map_injective_iff.mpr (Option.some_injective _) hall]
    rfl

def unreadableFirst : LedgerList := ⟨[.single [2] (.bytes 1), ofBool true], by decide⟩

/-- A field at more indices than the limit has a path above it, one at an index that a byte
cannot hold has none, and an element that does not convert ends the iterator. -/
theorem list_reads_exceed_limit :
    (∃ target, plainNode.listElementPath (List.replicate 17 0) 0 = some target ∧
      maxQueryPathDepth < target.path.length) ∧
    plainNode.listElementPath [256] 0 = none ∧
    ∃ accessor : ListAccessor Unit,
      readList plainU64 (.array [unreadableFirst.state]) [0] = .ok accessor ∧
      accessor.iter plainBool = [.error (.conversion "bool")] ∧
      accessor.len = 2 ∧ accessor.get plainBool 1 = some (.ok true) :=
  ⟨⟨_, rfl, by decide⟩, rfl, _,
    readList_eq plainU64 unreadableFirst (onlyField unreadableFirst), rfl, rfl, rfl⟩

end Samples

end MidnightRs.TypedState
