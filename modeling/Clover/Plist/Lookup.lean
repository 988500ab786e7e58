import Clover.Plist.Tags

/-!
# Lookup in a dictionary

The methods `dictKeyCount`, `getKeyAndValueAtIndex` and `propertyForKey` of `TagDict`. The first two
count a key only if a value stands behind it. The lookup stops at the first key of the name, also
where no value stands behind that one and a later key of the name has one.
-/

namespace Clover.Plist

open Clover.Unicode Clover.Xml

def asciiToLower (c : UInt32) : UInt32 := if 65 ≤ c ∧ c ≤ 90 then c - 65 + 97 else c

/-- The comparison `isEqualIC`, of the characters before the first zero one. -/
def isEqualIC (s other : Bytes) : Bool :=
  if s = [] ∨ other = [] then s = other
  else (chars s).map asciiToLower = (chars other).map asciiToLower

variable {F : Type}

def Tag.isKey : Tag F → Bool
  | .key _ => true
  | _ => false

variable (content : List (Tag F))

/-- The test for a key tag that equals `key`. -/
def Tag.isKeyFor (key : Bytes) : Tag F → Bool
  | .key s => isEqualIC s key
  | _ => false

/-- The key at the head and the value behind it, if both are there. -/
def pairAt : List (Tag F) → Option (Bytes × Tag F)
  | .key s :: value :: _ => if value.isKey then none else some (s, value)
  | _ => none

def dictKeyCount : List (Tag F) → Nat
  | [] => 0
  | tag :: content => (pairAt (tag :: content)).toList.length + dictKeyCount content

/-- The loop of `getKeyAndValueAtIndex`, with the number of pairs passed. -/
def keyAndValueFrom (id : Int) : Int → List (Tag F) → Option (Bytes × Tag F)
  | _, [] => none
  | element, tag :: content =>
    match pairAt (tag :: content) with
    | some pair => if element = id then some pair else keyAndValueFrom id (element + 1) content
    | none => keyAndValueFrom id element content

def getKeyAndValueAtIndex (content : List (Tag F)) (id : Int) : Option (Bytes × Tag F) :=
  if id < 0 then none else keyAndValueFrom id 0 content

/-- The value behind the first key of the name. -/
def propertyForKey (key : Bytes) : List (Tag F) → Option (Tag F)
  | [] => none
  | tag :: content =>
    if tag.isKeyFor key then (pairAt (tag :: content)).map (·.2) else propertyForKey key content

/-- The pairs at the places from zero to `dictKeyCount() - 1`. -/
def enumerated (content : List (Tag F)) : List (Bytes × Tag F) :=
  (List.range (dictKeyCount content)).filterMap fun id : Nat => getKeyAndValueAtIndex content id

/-! ## The enumeration -/

/-- The keys that have a value behind them. -/
def pairs : List (Tag F) → List (Bytes × Tag F)
  | [] => []
  | tag :: content => (pairAt (tag :: content)).toList ++ pairs content

theorem dictKeyCount_eq : dictKeyCount content = (pairs content).length := by
  induction content with
  | nil => rfl
  | cons tag content ih => rw [dictKeyCount, pairs, List.length_append, ih]

theorem keyAndValueFrom_eq (element id : Nat) :
    keyAndValueFrom ↑(element + id) element content = (pairs content)[id]? := by
  induction content generalizing element id with
  | nil => rfl
  | cons tag content ih =>
    rw [keyAndValueFrom, pairs]
    cases pairAt (tag :: content) with
    | none => exact ih element id
    | some pair =>
      cases id with
      | zero => exact if_pos rfl
      | succ id =>
        have hnext := ih (element + 1) id
        rw [show element + 1 + id = element + (id + 1) by omega] at hnext
        exact (if_neg (by omega)).trans hnext

/-- The enumeration gives the keys that have a value. -/
theorem enumerated_eq : enumerated content = pairs content := by
  have hat : ∀ id : Nat, getKeyAndValueAtIndex content id = (pairs content)[id]? := by
    intro id
    rw [← keyAndValueFrom_eq content 0 id, Nat.zero_add]
    exact if_neg (by omega)
  have hall : ∀ l : List (Bytes × Tag F),
      (List.range l.length).filterMap (fun id => l[id]?) = l := by
    intro l
    induction l with
    | nil => rfl
    | cons pair l ih => simp [List.range_succ_eq_map, List.filterMap_map, ih]
  simp only [enumerated, hat, dictKeyCount_eq, hall]

/-- The content starts with a key that equals `key` and its value. -/
def startsPair (key : Bytes) (content : List (Tag F)) : Bool :=
  (pairAt content).any fun pair => isEqualIC pair.1 key

/-! ## Agreement -/

theorem find?_pairs_eq_none (key : Bytes) (content : List (Tag F)) :
    (pairs content).find? (fun pair => isEqualIC pair.1 key) = none ↔
      ∀ rest, rest <:+ content → startsPair key rest = false := by
  induction content with
  | nil => simp [pairs, startsPair, pairAt]
  | cons tag content ih =>
    have hhead : ((pairAt (tag :: content)).toList.find? fun pair => isEqualIC pair.1 key) = none ↔
        startsPair key (tag :: content) = false := by
      unfold startsPair
      cases pairAt (tag :: content) <;> simp
    simp only [pairs, List.find?_append, Option.or_eq_none_iff, hhead, ih, List.suffix_cons_iff]
    simp

theorem isKeyFor_of_pairAt {tag : Tag F} {content : List (Tag F)} {pair : Bytes × Tag F}
    (h : pairAt (tag :: content) = some pair) (key : Bytes) :
    isEqualIC pair.1 key = tag.isKeyFor key := by
  unfold pairAt at h
  split at h
  next s value rest hcons =>
    split at h
    · cases h
    · cases h
      cases hcons
      rfl
  next => cases h

/-- Lookup and enumeration agree unless the first key of the name has no value and another has. -/
theorem propertyForKey_eq_iff (key : Bytes) (content : List (Tag F)) :
    propertyForKey key content =
        ((enumerated content).find? fun pair => isEqualIC pair.1 key).map (·.2) ↔
      startsPair key (content.dropWhile fun tag => !tag.isKeyFor key) ∨
        ∀ rest, rest <:+ content → startsPair key rest = false := by
  rw [enumerated_eq, ← find?_pairs_eq_none]
  induction content with
  | nil => simp [propertyForKey, pairs]
  | cons tag content ih =>
    have hhead := @isKeyFor_of_pairAt F tag content
    rw [propertyForKey, pairs, List.find?_append, List.dropWhile_cons]
    by_cases hfor : tag.isKeyFor key
    · cases hpair : pairAt (tag :: content) with
      | none => simp [hfor, hpair, startsPair, eq_comm]
      | some pair => simp [hfor, hpair, startsPair, hhead hpair]
    · cases hpair : pairAt (tag :: content) with
      | none => simpa [hfor] using ih
      | some pair => simpa [hfor, hhead hpair] using ih

/-- The second key has a value, which is enumerated and not found. -/
theorem key_twice_not_found :
    enumerated [Tag.key (F := Nat) (lit "a"), .key (lit "a"), .bool true] =
      [(lit "a", .bool true)] ∧
      propertyForKey (lit "a") [Tag.key (F := Nat) (lit "a"), .key (lit "a"), .bool true] = none :=
  ⟨rfl, rfl⟩

end Clover.Plist
