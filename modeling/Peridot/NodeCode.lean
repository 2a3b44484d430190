import Peridot.TreeNode

/-!
# An injective code for tree nodes

The development takes the identifiers of nodes as a parameter.  This file shows
that there is such a parameter: a node written out byte by byte, in a code where
every part shows where it ends.
-/

namespace Peridot

open List

def SelfDelimiting {α β : Type} (code : α → List β) : Prop :=
  ∀ ⦃first second : α⦄ ⦃tail rest : List β⦄,
    code first ++ tail = code second ++ rest → first = second ∧ tail = rest

namespace SelfDelimiting

variable {α β γ : Type}

theorem injective {code : α → List β} (delimited : SelfDelimiting code) :
    Function.Injective code := by
  intro first second same
  have delimitedByNil : code first ++ [] = code second ++ [] := by rw [same]
  exact (delimited delimitedByNil).1

theorem append {code : α → List γ} {code' : β → List γ} (delimited : SelfDelimiting code)
    (delimited' : SelfDelimiting code') :
    SelfDelimiting fun pair : α × β => code pair.1 ++ code' pair.2 := by
  rintro ⟨first, first'⟩ ⟨second, second'⟩ tail rest same
  simp only [append_assoc] at same
  obtain ⟨rfl, same'⟩ := delimited same
  obtain ⟨rfl, tails⟩ := delimited' same'
  exact ⟨rfl, tails⟩

theorem comp {code : β → List γ} (delimited : SelfDelimiting code) {f : α → β}
    (inj : Function.Injective f) : SelfDelimiting fun item => code (f item) := by
  intro first second tail rest same
  obtain ⟨images, tails⟩ := delimited same
  exact ⟨inj images, tails⟩

theorem singleton : SelfDelimiting fun item : α => [item] := by
  intro first second tail rest same
  simpa using same

end SelfDelimiting

/-- Write a list of code words, each announced by a `1`. -/
def listCode {α : Type} (code : α → Bytes) : List α → Bytes
  | [] => [0]
  | item :: items => 1 :: (code item ++ listCode code items)

theorem SelfDelimiting.list {α : Type} {code : α → Bytes} (delimited : SelfDelimiting code) :
    SelfDelimiting (listCode code) := by
  intro first second tail rest same
  induction first generalizing second with
  | nil =>
    cases second with
    | nil => simpa [listCode] using same
    | cons item items => simp [listCode] at same
  | cons item items ih =>
    cases second with
    | nil => simp [listCode] at same
    | cons item' items' =>
      simp only [listCode, cons_append, append_assoc, cons.injEq, true_and] at same
      obtain ⟨rfl, same'⟩ := delimited same
      obtain ⟨rfl, tails⟩ := ih same'
      exact ⟨rfl, tails⟩

def natCode (number : Nat) : Bytes :=
  listCode (fun _ => []) (replicate number ())

theorem natCode_selfDelimiting : SelfDelimiting natCode := by
  have unit : SelfDelimiting fun _ : Unit => ([] : Bytes) := fun _ _ _ _ same => ⟨rfl, same⟩
  exact unit.list.comp fun first second same => by simpa using congrArg length same

def bytesCode : Bytes → Bytes :=
  listCode fun byte => [byte]

theorem bytesCode_selfDelimiting : SelfDelimiting bytesCode :=
  SelfDelimiting.singleton.list

def identifierCode (identifier : ObjectIdentifier) : Bytes :=
  natCode identifier.keyIndex.toNat ++
    (natCode identifier.deletionScopeId.toNat ++ bytesCode identifier.objectDigest)

theorem identifierCode_selfDelimiting : SelfDelimiting identifierCode := by
  refine SelfDelimiting.comp (natCode_selfDelimiting.append
    (natCode_selfDelimiting.append bytesCode_selfDelimiting))
    (f := fun identifier : ObjectIdentifier => (identifier.keyIndex.toNat,
      identifier.deletionScopeId.toNat, identifier.objectDigest)) ?_
  rintro ⟨index, scope, digest⟩ ⟨index', scope', digest'⟩ same
  simp only [Prod.mk.injEq, UInt32.toNat_inj] at same
  obtain ⟨rfl, rfl, rfl⟩ := same
  rfl

def entryCode (entry : Entry) : Bytes :=
  bytesCode entry.key ++
    (identifierCode entry.objectIdentifier ++ [match entry.priority with
        | .eager => (0 : UInt8)
        | .lazy => 1])

theorem entryCode_selfDelimiting : SelfDelimiting entryCode := by
  refine SelfDelimiting.comp (bytesCode_selfDelimiting.append
    (identifierCode_selfDelimiting.append SelfDelimiting.singleton))
    (f := fun entry : Entry => (entry.key, entry.objectIdentifier, match entry.priority with
      | .eager => (0 : UInt8)
      | .lazy => 1)) ?_
  rintro ⟨key, identifier, priority⟩ ⟨key', identifier', priority'⟩ same
  simp only [Prod.mk.injEq] at same
  obtain ⟨rfl, rfl, same⟩ := same
  cases priority <;> cases priority' <;> simp at same <;> rfl

def nodeCode (node : TreeNode) : Bytes :=
  [node.level] ++ (listCode entryCode node.entries ++
    listCode (fun child => natCode child.1 ++ identifierCode child.2) node.children)

theorem nodeCode_injective : Function.Injective nodeCode := by
  refine (SelfDelimiting.comp (SelfDelimiting.singleton.append (entryCode_selfDelimiting.list.append
      (natCode_selfDelimiting.append identifierCode_selfDelimiting).list))
    (f := fun node : TreeNode => (node.level, node.entries, node.children)) ?_).injective
  rintro ⟨level, entries, children, sorted⟩ ⟨level', entries', children', sorted'⟩ same
  simp only [Prod.mk.injEq] at same
  obtain ⟨rfl, rfl, rfl⟩ := same
  rfl

def NodeIdentifiers.byCode : NodeIdentifiers where
  identify node := ⟨0, 0, nodeCode node⟩
  injective first second same := nodeCode_injective (congrArg ObjectIdentifier.objectDigest same)
  digest_ne_nil node := by simp [nodeCode]

end Peridot
