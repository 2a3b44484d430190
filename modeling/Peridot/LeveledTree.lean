import Peridot.SpinePosition

/-!
# Search trees with a level for every key

Every key has a level, fixed by the key alone, and is stored in a node of that
level; the children of a node sit exactly one level below it.  `Slot E n` is what
a child slot of a level-`n` node can hold: nothing, or a node of level `n - 1`.
The type already keeps the levels apart, so the invariants left to state are the
order of the contents and the level of each entry.

The operations below update such a tree in memory: splitting and merging
subtrees at a key, inserting or replacing an entry, and erasing a key.
-/

namespace Peridot

open Spine

/-- The content of a child slot of a node of level `n`. -/
def Slot (E : Type) : Nat → Type
  | 0 => Unit
  | n + 1 => Option (Spine (Slot E n) E)

namespace Slot

variable {E K : Type} {n : Nat}

def null : (n : Nat) → Slot E n
  | 0 => ()
  | _ + 1 => none

def node {n : Nat} (spine : Spine (Slot E n) E) : Slot E (n + 1) :=
  some spine

def toNode {n : Nat} (slot : Slot E (n + 1)) : Option (Spine (Slot E n) E) :=
  slot

@[elab_as_elim]
theorem succCases {motive : Slot E (n + 1) → Prop} (null : motive (null (n + 1)))
    (node : ∀ spine, motive (node spine)) (slot : Slot E (n + 1)) : motive slot :=
  match slot with
  | none => null
  | some spine => node spine

@[simp]
theorem toNode_null (n : Nat) : toNode (null (n + 1) : Slot E (n + 1)) = none :=
  rfl

@[simp]
theorem toNode_node (spine : Spine (Slot E n) E) : toNode (node spine) = some spine :=
  rfl

theorem node_injective {first second : Spine (Slot E n) E}
    (same : node first = node second) : first = second :=
  Option.some.inj same

def isNull : (n : Nat) → Slot E n → Bool
  | 0, _ => true
  | _ + 1, slot => (toNode slot).isNone

def contents : (n : Nat) → Slot E n → List E
  | 0, _ => []
  | n + 1, slot =>
    match toNode slot with
    | none => []
    | some spine => spine.flatten (contents n)

def isBare {n : Nat} : Spine (Slot E n) E → Bool
  | .last child => isNull n child
  | .step _ _ _ => false

def normal {n : Nat} (spine : Spine (Slot E n) E) : Slot E (n + 1) :=
  if isBare spine then null (n + 1) else node spine

def wrap {n : Nat} (slot : Slot E n) : Slot E (n + 1) :=
  normal (.last slot)

def raise {n m : Nat} (higher : n ≤ m) (slot : Slot E n) : Slot E m :=
  Nat.leRecOn higher (fun {_} => wrap) slot

def single (n : Nat) (entry : E) : Spine (Slot E n) E :=
  .step (null n) entry (.last (null n))

def merge : (n : Nat) → Slot E n → Slot E n → Slot E n
  | 0, _, _ => null 0
  | n + 1, first, second =>
    match toNode first, toNode second with
    | none, _ => second
    | some _, none => first
    | some left, some right => node (left.glue (merge n left.final right.first) right)

variable [LinearOrder K] (key : E → K)

def split (k : K) : (n : Nat) → Slot E n → Slot E n × Slot E n
  | 0, _ => (null 0, null 0)
  | n + 1, slot =>
    match toNode slot with
    | none => (null (n + 1), null (n + 1))
    | some spine =>
      if isBare spine then (null (n + 1), slot)
      else
        let halves := split k n (spine.focus (Spine.beforeKey key k))
        let parts := spine.cut (Spine.beforeKey key k) halves.1 halves.2
        (normal parts.1, normal parts.2)

def upsert (level : Nat) (entry : E) : (n : Nat) → Slot E n → Slot E n
  | 0, _ => null 0
  | n + 1, slot =>
    match toNode slot with
    | none =>
      if fits : level + 1 ≤ n + 1 then raise fits (node (single level entry)) else slot
    | some spine =>
      let before := Spine.beforeKey key (key entry)
      if level < n then
        node (spine.setFocus before (upsert level entry n (spine.focus before)))
      else if (spine.next before).map key = some (key entry) then
        node (spine.setNext before entry)
      else
        let halves := split key (key entry) n (spine.focus before)
        node (spine.insert before halves.1 entry halves.2)

def erase (level : Nat) (k : K) : (n : Nat) → Slot E n → Option (Slot E n)
  | 0, _ => none
  | n + 1, slot =>
    match toNode slot with
    | none => none
    | some spine =>
      let before := Spine.beforeKey key k
      if level < n then
        (erase level k n (spine.focus before)).map fun child =>
          normal (spine.setFocus before child)
      else if (spine.next before).map key = some k then
        some (normal (spine.removeNext before
          (merge n (spine.focus before) (spine.afterNext before))))
      else none

section Equations

variable {n : Nat} (spine : Spine (Slot E n) E) {key}

@[simp]
theorem isNull_null (n : Nat) : isNull n (null n : Slot E n) = true := by
  cases n <;> rfl

@[simp]
theorem isNull_node : isNull (n + 1) (node spine) = false :=
  rfl

theorem eq_null_of_isNull {slot : Slot E n} (isNull : isNull n slot = true) : slot = null n := by
  cases n with
  | zero => rfl
  | succ n =>
    cases slot using succCases with
    | null => rfl
    | node spine => simp at isNull

@[simp]
theorem contents_null (n : Nat) : contents n (null n : Slot E n) = [] := by
  cases n <;> rfl

@[simp]
theorem contents_node : contents (n + 1) (node spine) = spine.flatten (contents n) :=
  rfl

variable {spine}

theorem normal_of_isBare (bare : isBare spine = true) : normal spine = null (n + 1) :=
  if_pos bare

theorem normal_of_not_isBare (notBare : ¬isBare spine = true) : normal spine = node spine :=
  if_neg notBare

theorem raise_self (slot : Slot E n) : raise le_rfl slot = slot :=
  Nat.leRecOn_self slot

theorem raise_succ {m : Nat} (higher : n ≤ m) (slot : Slot E n) :
    raise (Nat.le_succ_of_le higher) slot = wrap (raise higher slot) :=
  Nat.leRecOn_succ higher slot

@[simp]
theorem merge_null_left (slot : Slot E (n + 1)) : merge (n + 1) (null (n + 1)) slot = slot :=
  rfl

@[simp]
theorem merge_null_right (slot : Slot E (n + 1)) : merge (n + 1) slot (null (n + 1)) = slot := by
  cases slot using succCases with
  | null => rfl
  | node spine => rfl

@[simp]
theorem merge_node (left right : Spine (Slot E n) E) : merge (n + 1) (node left) (node right) =
    node (left.glue (merge n left.final right.first) right) :=
  rfl

@[simp]
theorem split_null (k : K) (n : Nat) : split key k n (null n) = (null n, null n) := by
  cases n <;> rfl

theorem split_of_isBare (k : K) (bare : isBare spine = true) :
    split key k (n + 1) (node spine) = (null (n + 1), node spine) :=
  if_pos bare

variable {k : K}

theorem split_node (notBare : ¬isBare spine = true) : split key k (n + 1) (node spine) =
      let halves := split key k n (spine.focus (beforeKey key k))
      (normal (spine.cut (beforeKey key k) halves.1 halves.2).1,
        normal (spine.cut (beforeKey key k) halves.1 halves.2).2) :=
  if_neg notBare

variable {level : Nat} {entry : E}

theorem upsert_null (fits : level + 1 ≤ n + 1) :
    upsert key level entry (n + 1) (null (n + 1)) = raise fits (node (single level entry)) :=
  dif_pos fits

theorem upsert_lower (lower : level < n) : upsert key level entry (n + 1) (node spine) =
    node (spine.setFocus (beforeKey key (key entry))
      (upsert key level entry n (spine.focus (beforeKey key (key entry))))) :=
  if_pos lower

theorem upsert_present (notLower : ¬level < n)
    (present : (spine.next (beforeKey key (key entry))).map key = some (key entry)) :
    upsert key level entry (n + 1) (node spine) =
      node (spine.setNext (beforeKey key (key entry)) entry) :=
  (if_neg notLower).trans (if_pos present)

theorem upsert_absent (notLower : ¬level < n)
    (absent : ¬(spine.next (beforeKey key (key entry))).map key = some (key entry)) :
    upsert key level entry (n + 1) (node spine) =
      let halves := split key (key entry) n (spine.focus (beforeKey key (key entry)))
      node (spine.insert (beforeKey key (key entry)) halves.1 entry halves.2) :=
  (if_neg notLower).trans (if_neg absent)

@[simp]
theorem erase_null (level : Nat) (k : K) : erase key level k (n + 1) (null (n + 1)) = none :=
  rfl

theorem erase_lower (lower : level < n) : erase key level k (n + 1) (node spine) =
    (erase key level k n (spine.focus (beforeKey key k))).map fun child =>
      normal (spine.setFocus (beforeKey key k) child) :=
  if_pos lower

theorem erase_present (notLower : ¬level < n)
    (present : (spine.next (beforeKey key k)).map key = some k) :
    erase key level k (n + 1) (node spine) = some (normal (spine.removeNext (beforeKey key k)
        (merge n (spine.focus (beforeKey key k)) (spine.afterNext (beforeKey key k))))) :=
  (if_neg notLower).trans (if_pos present)

theorem erase_absent (notLower : ¬level < n)
    (absent : ¬(spine.next (beforeKey key k)).map key = some k) :
    erase key level k (n + 1) (node spine) = none :=
  (if_neg notLower).trans (if_neg absent)

/-- A split in front of a node without a first child leaves the node alone. -/
theorem split_at_start (atStart : position (beforeKey key k) spine.entries = 0)
    (noChild : isNull n (spine.focus (beforeKey key k)) = true) :
    split key k (n + 1) (node spine) = (null (n + 1), node spine) := by
  cases spine with
  | last child => exact split_of_isBare k noChild
  | step child entry rest =>
    have notBefore : ¬beforeKey key k entry = true := by
      intro isBefore
      simp [entries, position_cons_of_before isBefore] at atStart
    have focusEq : (step child entry rest).focus (beforeKey key k) = child := if_neg notBefore
    have childNull : child = null n := eq_null_of_isNull (focusEq ▸ noChild)
    rw [split_node (by simp [isBare]), focusEq, childNull, split_null]
    simp [cut, notBefore, normal, isBare]

/-- A split behind a node without a last child leaves the node alone. -/
theorem split_at_end (notEmpty : spine.entries ≠ [])
    (atEnd : position (beforeKey key k) spine.entries = spine.entries.length)
    (noChild : isNull n (spine.focus (beforeKey key k)) = true) :
    split key k (n + 1) (node spine) = (node spine, null (n + 1)) := by
  have notBare : ¬isBare spine = true := by
    cases spine with
    | last child => simp [entries] at notEmpty
    | step child entry rest => simp [isBare]
  have focusNull := eq_null_of_isNull noChild
  have unchanged := spine.setFocus_focus (beforeKey key k)
  rw [focusNull] at unchanged
  rw [split_node notBare, focusNull, split_null]
  simp only [cut_of_position_eq_length atEnd, unchanged, normal_of_not_isBare notBare]
  simp [normal, isBare]

end Equations

end Slot

end Peridot
