import Clover.Lib.Run
import Clover.SecureBoot.Signatures

/-!
# The signature database as a set

A well-formed database is the concatenation of `SignatureList`s, and searching it finds the pairs
of a type and a signature that one of its lists holds (`checkSignatureIsInDatabase_iff`).

`AppendSignatureToList` creates a list without copying the signature into it, so appending to a
database adds the signature of zero bytes of that size and nothing else. The duplicate check of an
existing list and the loop of `RemoveSignatureFromDatabase` read at wrong places as well. What
remains true is in `database_set_iff`.
-/

namespace Clover.SecureBoot

open Clover.Lib List

variable {db' signature type : Bytes} {fuel : Nat}

/-! ## Lists and their bytes -/

/-- A signature list whose sizes are consistent: a further header, and entries of an owner and a
signature of `size` bytes. -/
structure SignatureList where
  type : Bytes
  header : Bytes
  size : Nat
  entries : List (Bytes × Bytes)
  length_type : type.length = 16
  size_pos : 0 < size
  length_entry : ∀ e ∈ entries, e.1.length = 16 ∧ e.2.length = size
  nonempty : header ≠ [] ∨ entries ≠ []
  size_fits : size + 16 < 2 ^ 32
  fits : 28 + header.length + entries.length * (size + 16) < 2 ^ 32

namespace SignatureList

variable (l : SignatureList)

def listSize : Nat := 28 + l.header.length + l.entries.length * (l.size + 16)

/-- The fields of `EFI_SIGNATURE_LIST`. -/
def fields : ListHeader := ⟨l.type, l.listSize, l.header.length, l.size + 16⟩

def entryBytes (e : Bytes × Bytes) : Bytes := e.1 ++ e.2

def bytes : Bytes := writeHeader l.fields ++ l.header ++ l.entries.flatMap entryBytes

/-- The signatures of the list. -/
def signatures : List Bytes := l.entries.map Prod.snd

theorem listSize_gt : 28 < l.listSize := by
  rw [listSize]
  rcases l.nonempty with h | h
  · have := length_pos_iff.mpr h
    omega
  · have := length_pos_iff.mpr h
    have := Nat.mul_pos this (show 0 < l.size + 16 by omega)
    omega

theorem length_entries : (l.entries.flatMap entryBytes).length =
    l.entries.length * (l.size + 16) := by
  have h := l.length_entry
  generalize l.entries = es at h
  induction es with
  | nil => simp
  | cons e es ih =>
    have he := h e mem_cons_self
    rw [flatMap_cons, length_append, ih fun e' he' => h e' (mem_cons_of_mem _ he'),
      entryBytes, length_append, he.1, he.2, length_cons, Nat.succ_mul]
    omega

theorem length_bytes : l.bytes.length = l.listSize := by
  rw [bytes, length_append, length_append, l.length_entries]
  simp [writeHeader, fields, l.length_type, listSize]

end SignatureList

theorem readHeader_writeHeader (h : ListHeader) (htype : h.signatureType.length = 16)
    (rest : Bytes) :
    readHeader (writeHeader h ++ rest) = ⟨h.signatureType, h.signatureListSize % 2 ^ 32,
      h.signatureHeaderSize % 2 ^ 32, h.signatureSize % 2 ^ 32⟩ := by
  have htake : ∀ a b c d : Bytes, a.length = 16 → b.length = 4 → c.length = 4 → d.length = 4 →
      readHeader (a ++ b ++ c ++ d ++ rest) = ⟨a, leValue b, leValue c, leValue d⟩ := by
    intro a b c d ha hb hc hd
    have h20 : (a ++ b).length = 20 := by rw [length_append, ha, hb]
    have h24 : (a ++ b ++ c).length = 24 := by rw [length_append, h20, hc]
    simp only [readHeader, ListHeader.mk.injEq]
    refine ⟨?_, ?_, ?_, ?_⟩
    · simp only [append_assoc]
      exact take_left' ha
    · simp only [append_assoc]
      rw [drop_left' ha, take_left' hb]
    · rw [append_assoc _ c d, append_assoc _ (c ++ d) rest, append_assoc c d rest,
        drop_left' h20, take_left' hc]
    · rw [append_assoc _ d rest, drop_left' h24, take_left' hd]
  rw [writeHeader, htake _ _ _ _ htype (length_leBytes 4 _) (length_leBytes 4 _)
    (length_leBytes 4 _), leValue_leBytes, leValue_leBytes, leValue_leBytes]

namespace SignatureList

variable (l : SignatureList)

@[simp] theorem readHeader_bytes (rest : Bytes) : readHeader (l.bytes ++ rest) = l.fields := by
  have hfits : l.listSize < 2 ^ 32 := l.fits
  have hheader : l.header.length < 2 ^ 32 := by
    rw [listSize] at hfits
    omega
  rw [bytes, append_assoc, append_assoc, readHeader_writeHeader _ l.length_type, fields,
    Nat.mod_eq_of_lt hfits, Nat.mod_eq_of_lt hheader, Nat.mod_eq_of_lt l.size_fits]

@[simp] theorem invalid_fields : l.fields.invalid = false := by
  have := l.listSize_gt
  have := l.size_pos
  rw [ListHeader.invalid, decide_eq_false, decide_eq_false]
  · rfl
  · simp only [fields, guidSize]
    omega
  · simp only [fields, listHeaderSize]
    omega

theorem map_places {size : Nat} (hsize : 0 < size) (es : List (Bytes × Bytes))
    (front rest : Bytes) (fuel : Nat)
    (hes : ∀ e ∈ es, e.1.length = 16 ∧ e.2.length = size) (hfuel : es.length ≤ fuel) :
    (places (front.length + es.length * (size + 16)) (size + 16) fuel (front.length + 16)).map
      (fun p => bytesAt (front ++ es.flatMap entryBytes ++ rest) p size) = es.map Prod.snd := by
  induction es generalizing front fuel with
  | nil => cases fuel <;> simp [places]
  | cons e es ih =>
    obtain ⟨fuel, rfl⟩ : ∃ n, fuel = n + 1 := ⟨fuel - 1, by rw [length_cons] at hfuel; omega⟩
    obtain ⟨howner, hsig⟩ := hes e mem_cons_self
    have hnext : (front ++ entryBytes e).length = front.length + (size + 16) := by
      rw [entryBytes, length_append, length_append, howner, hsig]
      omega
    have hlast : front.length + (e :: es).length * (size + 16) =
        (front ++ entryBytes e).length + es.length * (size + 16) := by
      rw [hnext, length_cons, Nat.succ_mul]
      omega
    have hmem : front ++ (e :: es).flatMap entryBytes ++ rest =
        (front ++ entryBytes e) ++ es.flatMap entryBytes ++ rest := by
      simp
    rw [places, if_pos (by rw [hlast, hnext]; omega), map_cons, map_cons,
      show front.length + 16 + (size + 16) = (front ++ entryBytes e).length + 16 by omega, hlast,
      hmem]
    congr 1
    · have hfront : (front ++ e.1).length = front.length + 16 := by
        rw [length_append, howner]
      rw [bytesAt, entryBytes, ← append_assoc front e.1, append_assoc,
        append_assoc, drop_left' hfront, take_left' hsig]
    · refine ih _ fuel (fun e' he' => hes e' (mem_cons_of_mem _ he')) ?_
      rw [length_cons] at hfuel
      omega

theorem map_signaturePlaces (rest : Bytes) :
    l.fields.signaturePlaces.map (fun p => bytesAt (l.bytes ++ rest) p l.size) = l.signatures := by
  have hfront : (writeHeader l.fields ++ l.header).length = l.header.length + 28 := by
    simp only [writeHeader, fields, length_append, length_leBytes, l.length_type]
    omega
  have h := map_places l.size_pos l.entries (writeHeader l.fields ++ l.header) rest l.listSize
    l.length_entry ?_
  · rw [hfront, show l.header.length + 28 + l.entries.length * (l.size + 16) = l.listSize by
      rw [listSize]; omega] at h
    exact h
  · have := Nat.le_mul_of_pos_right l.entries.length (show 0 < l.size + 16 by omega)
    rw [listSize]
    omega

end SignatureList

/-- The bytes of a database. -/
def databaseBytes (ls : List SignatureList) : Bytes := ls.flatMap SignatureList.bytes

/-- One of the lists holds the signature, with its type. -/
def Holds (ls : List SignatureList) (type signature : Bytes) : Prop :=
  ∃ l ∈ ls, l.type = type ∧ signature ∈ l.signatures

/-! ## Searching -/

variable {l : SignatureList}

theorem SignatureList.length_of_mem (h : signature ∈ l.signatures) : signature.length = l.size := by
  obtain ⟨e, he, rfl⟩ := mem_map.mp h
  exact (l.length_entry e he).2

theorem SignatureList.bytes_ne_nil (l : SignatureList) (rest : Bytes) : l.bytes ++ rest ≠ [] := by
  intro h
  have hlength := l.length_bytes
  have hsize := l.listSize_gt
  rw [(append_eq_nil_iff.mp h).1] at hlength
  rw [length_nil] at hlength
  omega

theorem SignatureList.drop_bytes (l : SignatureList) (rest : Bytes) :
    (l.bytes ++ rest).drop l.fields.signatureListSize = rest :=
  drop_left' l.length_bytes

theorem SignatureList.searched_iff (l : SignatureList) (type signature rest : Bytes) :
    (signature.length + guidSize = l.fields.signatureSize ∧ type = l.fields.signatureType ∧
      l.fields.signaturePlaces.any
        (fun p => bytesAt (l.bytes ++ rest) p signature.length == signature)) ↔
      l.type = type ∧ signature ∈ l.signatures := by
  by_cases hsize : signature.length = l.size
  · have hany : l.fields.signaturePlaces.any
        (fun p => bytesAt (l.bytes ++ rest) p signature.length == signature) =
          l.signatures.any (· == signature) := by
      rw [← l.map_signaturePlaces rest, any_map, hsize]
      rfl
    rw [hany, any_beq']
    simp only [SignatureList.fields, guidSize, hsize, true_and, contains_iff_mem]
    exact and_congr_left' eq_comm
  · have hne : signature.length + guidSize ≠ l.fields.signatureSize := by
      simp only [SignatureList.fields, guidSize]
      omega
    have hmem : signature ∉ l.signatures := fun h => hsize (SignatureList.length_of_mem h)
    simp [hne, hmem]

theorem searchLists_cons (type signature : Bytes) (l : SignatureList) (rest : Bytes) (fuel : Nat) :
    searchLists type signature (fuel + 1) (l.bytes ++ rest) =
      if l.type = type ∧ signature ∈ l.signatures then .success
      else searchLists type signature fuel rest := by
  rw [searchLists]
  · simp only [l.readHeader_bytes, l.invalid_fields, Bool.false_eq_true, if_false,
      l.searched_iff, l.drop_bytes]
  · exact l.bytes_ne_nil rest

instance (ls : List SignatureList) (type signature : Bytes) : Decidable (Holds ls type signature) :=
  inferInstanceAs (Decidable (∃ l ∈ ls, l.type = type ∧ signature ∈ l.signatures))

theorem holds_cons (l : SignatureList) (ls : List SignatureList) (type signature : Bytes) :
    Holds (l :: ls) type signature ↔
      (l.type = type ∧ signature ∈ l.signatures) ∨ Holds ls type signature := by
  simp [Holds, or_and_right, exists_or]

theorem not_holds_nil (type signature : Bytes) : ¬ Holds [] type signature := by
  simp [Holds]

theorem searchLists_eq (type signature : Bytes) (ls : List SignatureList)
    (hfuel : ls.length ≤ fuel) :
    searchLists type signature fuel (databaseBytes ls) =
      if Holds ls type signature then .success else .notFound := by
  induction ls generalizing fuel with
  | nil =>
    cases fuel <;> rfl
  | cons l ls ih =>
    obtain ⟨fuel, rfl⟩ : ∃ n, fuel = n + 1 := ⟨fuel - 1, by rw [length_cons] at hfuel; omega⟩
    rw [databaseBytes, flatMap_cons, searchLists_cons]
    by_cases hl : l.type = type ∧ signature ∈ l.signatures
    · rw [if_pos hl, if_pos ((holds_cons _ _ _ _).mpr (Or.inl hl))]
    · rw [if_neg hl]
      refine (ih (by rw [length_cons] at hfuel; omega)).trans ?_
      simp [holds_cons, hl]

theorem length_le_databaseBytes (ls : List SignatureList) :
    28 * ls.length ≤ (databaseBytes ls).length := by
  induction ls with
  | nil => exact Nat.le_refl _
  | cons l ls ih =>
    have := l.listSize_gt
    rw [databaseBytes, flatMap_cons, length_append, l.length_bytes, length_cons]
    rw [databaseBytes] at ih
    omega

theorem length_databaseBytes_le (ls : List SignatureList) :
    (databaseBytes ls).length ≤ listHeaderSize ↔ ls = [] := by
  cases ls with
  | nil => simp [databaseBytes]
  | cons l ls =>
    have := l.listSize_gt
    rw [databaseBytes, flatMap_cons, length_append, l.length_bytes, listHeaderSize]
    simp only [reduceCtorEq, iff_false]
    omega

theorem check_eq (htype : isNull type = false) (hsig : signature ≠ []) (ls : List SignatureList) :
    checkSignatureIsInDatabase (databaseBytes ls) type signature =
      if Holds ls type signature then .success else .notFound := by
  rw [checkSignatureIsInDatabase, htype, isEmpty_eq_false_iff.mpr hsig, Bool.or_self,
    if_neg Bool.false_ne_true]
  simp only [length_databaseBytes_le]
  split
  · next hnil =>
    rw [hnil, if_neg (not_holds_nil type signature)]
  · refine searchLists_eq type signature ls ?_
    have := length_le_databaseBytes ls
    omega

/-- The search finds the signature. -/
def Found (db type signature : Bytes) : Prop :=
  checkSignatureIsInDatabase db type signature = .success

instance (db type signature : Bytes) : Decidable (Found db type signature) :=
  inferInstanceAs (Decidable (_ = _))

variable {ls ls' : List SignatureList}

theorem Holds.ne_nil (h : Holds ls type signature) : signature ≠ [] := by
  obtain ⟨l, -, -, hmem⟩ := h
  have := l.length_of_mem hmem
  have := l.size_pos
  rintro rfl
  rw [length_nil] at *
  omega

/-- What the search finds, in terms of the lists. -/
theorem found_iff (ls : List SignatureList) (type signature : Bytes) :
    Found (databaseBytes ls) type signature ↔
      isNull type = false ∧ Holds ls type signature := by
  rw [Found]
  cases htype : isNull type with
  | true => simp [checkSignatureIsInDatabase, htype]
  | false =>
    by_cases hsig : signature = []
    · subst hsig
      have hnot : ¬ Holds ls type [] := fun h => h.ne_nil rfl
      simp [checkSignatureIsInDatabase, hnot]
    · rw [check_eq htype hsig]
      split <;> simp [*]

/-! ## Appending -/

/-- The lists `ls'` hold what `ls` hold, and what `P` says. -/
def Adds (ls ls' : List SignatureList) (P : Bytes → Bytes → Prop) : Prop :=
  ∀ type signature, Holds ls' type signature ↔ Holds ls type signature ∨ P type signature

theorem adds_self {P : Bytes → Bytes → Prop}
    (h : ∀ type signature, P type signature → Holds ls type signature) : Adds ls ls P :=
  fun type signature => (or_iff_left_of_imp (h type signature)).symm

theorem adds_append (ls : List SignatureList) (l : SignatureList) :
    Adds ls (ls ++ [l]) fun type signature => l.type = type ∧ signature ∈ l.signatures := by
  simp [Adds, Holds, or_and_right, exists_or]

theorem found_of_adds (hnull : isNull type = false)
    (h : Adds ls ls' fun type' signature' => type' = type ∧ signature' = signature)
    (type' signature' : Bytes) :
    Found (databaseBytes ls') type' signature' ↔
      Found (databaseBytes ls) type' signature' ∨ (type' = type ∧ signature' = signature) := by
  rw [found_iff, found_iff, h, and_or_left]
  exact or_congr_right (and_iff_right_of_imp fun heq => heq.1 ▸ hnull)

/-- The signature of `n` zero bytes. -/
def zeros (n : Nat) : Bytes := replicate n 0

/-- The list that holds the signature of `n` zero bytes and nothing else. -/
def zeroList (type : Bytes) (n : Nat) (htype : type.length = 16) (hpos : 0 < n)
    (hfits : n + 44 < 2 ^ 32) : SignatureList where
  type := type
  header := []
  size := n
  entries := [(zeros 16, zeros n)]
  length_type := htype
  size_pos := hpos
  length_entry := by simp [zeros]
  nonempty := Or.inr (cons_ne_nil _ _)
  size_fits := by omega
  fits := by simp only [length_nil, length_singleton]; omega

theorem appendSignatureToList_none {behind : Bytes → Bytes} (htype : isNull type = false)
    (hsig : signature ≠ []) :
    appendSignatureToList behind none type signature =
      .ok (writeHeader ⟨type, (signature.length + 16) % 2 ^ 32 + 28, 0,
        (signature.length + 16) % 2 ^ 32⟩ ++ zeros ((signature.length + 16) % 2 ^ 32)) := by
  rw [appendSignatureToList, htype, isEmpty_eq_false_iff.mpr hsig, Bool.or_self,
    if_neg Bool.false_ne_true]
  rfl

section Append

variable {behind : Bytes → Bytes} {type : Bytes} {n : Nat} (htype : type.length = 16)
  (hpos : 0 < n) (hfits : n + 44 < 2 ^ 32)

theorem zeroList_bytes : (zeroList type n htype hpos hfits).bytes =
    writeHeader ⟨type, n + 16 + 28, 0, n + 16⟩ ++ zeros (n + 16) := by
  have hsize : (zeroList type n htype hpos hfits).listSize = n + 16 + 28 := by
    simp only [SignatureList.listSize, zeroList, length_nil, length_singleton]
    omega
  have hzeros : zeros (n + 16) = zeros 16 ++ zeros n := by
    rw [zeros, zeros, zeros, ← replicate_add, Nat.add_comm]
  rw [SignatureList.bytes, SignatureList.fields, hsize, hzeros]
  simp [zeroList, SignatureList.entryBytes]

theorem zeroList_signatures : (zeroList type n htype hpos hfits).signatures = [zeros n] := rfl

theorem adds_zeroList (ls : List SignatureList) :
    Adds ls (ls ++ [zeroList type n htype hpos hfits])
      fun type' signature => type' = type ∧ signature = zeros n := by
  intro type' signature
  refine (adds_append ls _ type' signature).trans (or_congr_right ?_)
  simp only [zeroList_signatures, mem_singleton]
  exact and_congr_left' eq_comm

theorem collectNew_found {db list : Bytes} {ps : List Nat} (new : Option Bytes)
    (h : ∀ p ∈ ps, checkSignatureIsInDatabase db (readHeader list).signatureType
      (bytesAt list p ((readHeader list).signatureSize - guidSize)) = .success) :
    collectNew behind db list ps new = .ok new := by
  induction ps with
  | nil => rfl
  | cons p ps ih =>
    rw [collectNew]
    simp only [h p mem_cons_self]
    exact ih fun q hq => h q (mem_cons_of_mem p hq)

theorem appendList_short {db : Bytes} (hdb : db.length ≤ listHeaderSize) (l : SignatureList)
    (rest : Bytes) :
    appendSignatureListToDatabase behind db (l.bytes ++ rest) = .ok l.bytes := by
  rw [appendSignatureListToDatabase]
  simp only [l.readHeader_bytes, l.invalid_fields, Bool.false_eq_true, if_false, hdb, if_true]
  exact congrArg Except.ok (take_left' l.length_bytes)

theorem signatureSize_sub (l : SignatureList) : l.fields.signatureSize - guidSize = l.size :=
  Nat.add_sub_cancel l.size 16

theorem bytesAt_mem (l : SignatureList) (rest : Bytes) {p : Nat}
    (hp : p ∈ l.fields.signaturePlaces) : bytesAt (l.bytes ++ rest) p l.size ∈ l.signatures := by
  rw [← l.map_signaturePlaces rest]
  exact mem_map_of_mem hp

/-- A list whose signatures are all there already leaves the database as it is, unless its type
is null. -/
theorem appendList_held (hne : ls ≠ [])
    (hheld : ∀ signature ∈ l.signatures, Holds ls l.type signature) (rest : Bytes)
    (h : appendSignatureListToDatabase behind (databaseBytes ls) (l.bytes ++ rest) = .ok db') :
    db' = databaseBytes ls := by
  rw [appendSignatureListToDatabase] at h
  simp only [l.readHeader_bytes, l.invalid_fields, Bool.false_eq_true, if_false,
    length_databaseBytes_le, hne] at h
  cases hnull : isNull l.type with
  | true =>
    cases hplaces : l.fields.signaturePlaces with
    | nil =>
      rw [hplaces, collectNew] at h
      exact (Except.ok.inj h).symm
    | cons p ps =>
      rw [hplaces, collectNew] at h
      simp only [l.readHeader_bytes, checkSignatureIsInDatabase] at h
      rw [show l.fields.signatureType = l.type from rfl, hnull] at h
      cases h
  | false =>
    rw [collectNew_found] at h
    · exact (Except.ok.inj h).symm
    · intro p hp
      have hmem := bytesAt_mem l rest hp
      have hholds := hheld _ hmem
      rw [l.readHeader_bytes, signatureSize_sub]
      exact (check_eq hnull hholds.ne_nil ls).trans (if_pos hholds)

/-- Appending the list of the zero signature adds this signature and nothing else. -/
theorem appendList_zeroList (hnull : isNull type = false) (ls : List SignatureList) :
    ∃ ls', appendSignatureListToDatabase behind (databaseBytes ls)
        (zeroList type n htype hpos hfits).bytes = .ok (databaseBytes ls') ∧
      Adds ls ls' fun type' signature => type' = type ∧ signature = zeros n := by
  set z := zeroList type n htype hpos hfits with hz
  have hrun : appendSignatureListToDatabase behind (databaseBytes ls) z.bytes =
      if Holds ls type (zeros n) then .ok (databaseBytes ls)
      else .ok (databaseBytes (ls ++ [z])) := by
    by_cases hnil : ls = []
    · rw [hnil, if_neg (not_holds_nil type _)]
      simpa [databaseBytes] using @appendList_short behind [] (Nat.zero_le _) z []
    have hheader : readHeader z.bytes = z.fields := by
      simpa using z.readHeader_bytes []
    have hzne : zeros n ≠ [] := by
      simp only [zeros, ne_eq, replicate_eq_nil_iff]
      omega
    -- the list has one place, and the zero signature stands there
    obtain ⟨p, hplaces, hbytes⟩ : ∃ p, z.fields.signaturePlaces = [p] ∧
        bytesAt z.bytes p z.size = zeros n := by
      have hmap := z.map_signaturePlaces []
      rw [append_nil, zeroList_signatures] at hmap
      exact map_eq_singleton_iff.mp hmap
    have hnew : appendSignatureToList behind none type (zeros n) = .ok z.bytes := by
      rw [appendSignatureToList_none hnull hzne, hz, zeroList_bytes, zeros,
        length_replicate, Nat.mod_eq_of_lt (by omega)]
    rw [appendSignatureListToDatabase]
    simp only [hheader, z.invalid_fields, Bool.false_eq_true, if_false, length_databaseBytes_le,
      hnil, hplaces, collectNew]
    rw [signatureSize_sub, hbytes, show z.fields.signatureType = type from rfl,
      check_eq hnull hzne]
    by_cases hholds : Holds ls type (zeros n)
    · simp [hholds]
    · simp only [hholds, if_false, hnew, hheader, z.invalid_fields, Bool.false_eq_true]
      rw [databaseBytes, databaseBytes, flatMap_append, flatMap_singleton]
      exact congrArg (fun bs => Except.ok (_ ++ bs)) (take_of_length_le
        (Nat.le_of_eq z.length_bytes))
  by_cases hholds : Holds ls type (zeros n)
  · rw [if_pos hholds] at hrun
    exact ⟨ls, hrun, adds_self fun type' signature h => h.1 ▸ h.2 ▸ hholds⟩
  · rw [if_neg hholds] at hrun
    exact ⟨_, hrun, adds_zeroList htype hpos hfits ls⟩

end Append

/-- The database is a concatenation of signature lists whose sizes are consistent. -/
def WellFormed (db : Bytes) : Prop := ∃ ls, db = databaseBytes ls

/-- When the call succeeds, the signature is found in addition to what was found before. -/
def AppendsToSet (behind : Bytes → Bytes) (db type signature : Bytes) : Prop :=
  ∀ db', appendSignatureToDatabase behind db type signature = .ok db' →
    WellFormed db' ∧ ∀ type' signature', Found db' type' signature' ↔
      Found db type' signature' ∨ (type' = type ∧ signature' = signature)

/-- The sizes, in 32 bits, of a list with one signature of `n` bytes are those of no valid
list. -/
def Rejected (n : Nat) : Prop := (n + 16) % 2 ^ 32 ≤ 16 ∨ 2 ^ 32 ≤ (n + 16) % 2 ^ 32 + 28

instance (n : Nat) : Decidable (Rejected n) := inferInstanceAs (Decidable (_ ∨ _))

section AppendToDatabase

variable {behind : Bytes → Bytes} {ls : List SignatureList} {type signature : Bytes}

theorem append_rejected (htype : type.length = 16) (hnull : isNull type = false)
    (hsig : signature ≠ []) (hrej : Rejected signature.length) (db : Bytes) :
    appendSignatureToDatabase behind db type signature = .error .invalidParameter := by
  rw [appendSignatureToDatabase, appendSignatureToList_none hnull hsig]
  simp only [appendSignatureListToDatabase]
  rw [readHeader_writeHeader _ htype, if_pos]
  rw [ListHeader.invalid, Bool.or_eq_true, decide_eq_true_eq, decide_eq_true_eq]
  simp only [Rejected, listHeaderSize, guidSize] at hrej ⊢
  omega

/-- A call that succeeds adds the zero signature, of the size the signature has in 32 bits. -/
theorem append_accepted (behind : Bytes → Bytes) (ls : List SignatureList)
    (htype : type.length = 16) (hnull : isNull type = false) (hsig : signature ≠ [])
    (hrej : ¬ Rejected signature.length) :
    ∃ ls', appendSignatureToDatabase behind (databaseBytes ls) type signature =
        .ok (databaseBytes ls') ∧
      Adds ls ls' fun type' signature' =>
        type' = type ∧ signature' = zeros ((signature.length + 16) % 2 ^ 32 - 16) := by
  simp only [Rejected, not_or, Nat.not_le] at hrej
  obtain ⟨n, hn⟩ : ∃ n, (signature.length + 16) % 2 ^ 32 = n + 16 :=
    ⟨(signature.length + 16) % 2 ^ 32 - 16, by omega⟩
  have hpos : 0 < n := by omega
  have hfits : n + 44 < 2 ^ 32 := by omega
  rw [appendSignatureToDatabase, appendSignatureToList_none hnull hsig, hn, Nat.add_sub_cancel,
    ← zeroList_bytes htype hpos hfits]
  exact appendList_zeroList htype hpos hfits hnull ls

theorem Holds.size_mod (h : Holds ls type signature) :
    (signature.length + 16) % 2 ^ 32 - 16 = signature.length := by
  obtain ⟨l, -, -, hmem⟩ := h
  have := l.length_of_mem hmem
  have := l.size_fits
  omega

/-- Appending works as on a set just when it has nothing to add but the zero signature, or fails. -/
theorem appendsToSet_iff (htype : type.length = 16) (hlong : 28 < signature.length) :
    AppendsToSet behind (databaseBytes ls) type signature ↔
      isNull type = true ∨ Rejected signature.length ∨
      (signature.length + 44 < 2 ^ 32 ∧ signature = zeros signature.length) ∨
      (Found (databaseBytes ls) type signature ∧
        Found (databaseBytes ls) type (zeros signature.length)) := by
  have hsig : signature ≠ [] := by
    rintro rfl
    rw [length_nil] at hlong
    omega
  cases hnull : isNull type with
  | true =>
    simp only [true_or, iff_true]
    intro db' h
    rw [appendSignatureToDatabase, appendSignatureToList] at h
    simp only [hnull, Bool.true_or, if_true] at h
    cases h
  | false =>
    by_cases hrej : Rejected signature.length
    · simp only [hrej, true_or, or_true, iff_true]
      intro db' h
      rw [append_rejected htype hnull hsig hrej] at h
      cases h
    · obtain ⟨ls', hrun, hadds⟩ := append_accepted behind ls htype hnull hsig hrej
      simp only [hrej, Bool.false_eq_true, false_or]
      simp only [Rejected, not_or, Nat.not_le] at hrej
      generalize hm : (signature.length + 16) % 2 ^ 32 - 16 = m at hadds
      have hsame := found_of_adds hnull hadds
      have hsize : Found (databaseBytes ls) type signature → m = signature.length :=
        fun h => hm.symm.trans ((found_iff _ _ _).mp h).2.size_mod
      constructor
      · intro hset
        obtain ⟨-, hfound⟩ := hset _ hrun
        simp only [hsame] at hfound
        -- the signature must be there, so its size is one that fits
        rcases (hfound type signature).mpr (Or.inr ⟨rfl, rfl⟩) with h | ⟨-, h⟩
        · rw [hsize h] at hfound
          rcases (hfound type (zeros signature.length)).mp (Or.inr ⟨rfl, rfl⟩) with hz | ⟨-, hz⟩
          · exact Or.inr ⟨h, hz⟩
          · have := hsize h
            exact Or.inl ⟨by omega, hz.symm⟩
        · have hlength := congrArg length h
          rw [zeros, length_replicate] at hlength
          refine Or.inl ⟨by omega, ?_⟩
          rw [hlength]
          exact h
      · intro hcond db' h
        have hdb : db' = databaseBytes ls' := Except.ok.inj (h.symm.trans hrun)
        refine ⟨⟨ls', hdb⟩, fun type' signature' => ?_⟩
        rw [hdb, hsame]
        rcases hcond with ⟨hfits, hzero⟩ | ⟨hheld, hz⟩
        · have hmlen : m = signature.length := by omega
          rw [hmlen, ← hzero]
        · rw [hsize hheld, or_iff_left_of_imp, or_iff_left_of_imp]
          · rintro ⟨rfl, rfl⟩
            exact hheld
          · rintro ⟨rfl, rfl⟩
            exact hz

end AppendToDatabase

/-! ## Removing -/

/-- When the call succeeds, the signature is no longer found, and all others are as before. -/
def RemovesFromSet (behind : Bytes → Bytes) (db type signature : Bytes) : Prop :=
  ∀ db', removeSignatureFromDatabase behind db type signature = .ok db' →
    WellFormed db' ∧ ∀ type' signature', Found db' type' signature' ↔
      Found db type' signature' ∧ ¬ (type' = type ∧ signature' = signature)

/-- The list could hold the signature, by its type and size. -/
def SignatureList.Matches (l : SignatureList) (type signature : Bytes) : Prop :=
  l.type = type ∧ l.size = signature.length

instance (l : SignatureList) (type signature : Bytes) : Decidable (l.Matches type signature) :=
  inferInstanceAs (Decidable (_ ∧ _))

/-- The list could hold the signature, but holds none at all. -/
def SignatureList.Vacant (l : SignatureList) (type signature : Bytes) : Prop :=
  l.Matches type signature ∧ l.signatures = []

instance (l : SignatureList) (type signature : Bytes) : Decidable (l.Vacant type signature) :=
  inferInstanceAs (Decidable (_ ∧ _))

/-- What removing a signature makes of the lists is right: of the lists that are not vacant, only
the first has signatures of another type or size that count, and those that could hold the signature
have one, which is this one or the zero signature. -/
structure Removable (ls : List SignatureList) (type signature : Bytes) : Prop where
  others : ∀ l ∈ ls, ¬ l.Matches type signature → ∀ s ∈ l.signatures,
    ∃ f, ls.find? (fun l => ¬ l.Vacant type signature) = some f ∧ ¬ f.Matches type signature ∧
      f.type = l.type ∧ s ∈ f.signatures
  single : ∀ l ∈ ls, l.Matches type signature →
    l.signatures = [] ∨ l.signatures = [signature] ∨ l.signatures = [zeros signature.length]
  zero : (∃ l ∈ ls, l.Matches type signature ∧ l.signatures ≠ []) →
    Holds ls type (zeros signature.length) ∧ signature ≠ zeros signature.length
  start : ∀ l ∈ ls, l.Matches type signature → l.signatures ≠ [] →
    l.bytes.take signature.length ≠ signature

/-- A list of null type with signatures stands behind one of another type or size than the
signature has. The call fails there. -/
def Refused (ls : List SignatureList) (type signature : Bytes) : Prop :=
  ∃ pre l post, ls = pre ++ l :: post ∧ isNull l.type = true ∧ l.signatures ≠ [] ∧
    ∃ f ∈ pre, ¬ f.Matches type signature

/-- What is left of a list: all of it, or the zero signature if it could hold the signature. -/
def Left (l : SignatureList) (type signature type' signature' : Bytes) : Prop :=
  if l.Matches type signature then
    l.signatures ≠ [] ∧ type' = type ∧ signature' = zeros signature.length
  else l.type = type' ∧ signature' ∈ l.signatures

theorem left_of_matches (h : l.Matches type signature) (hne : l.signatures ≠ []) :
    Left l type signature = fun type' signature' =>
      type' = type ∧ signature' = zeros signature.length := by
  funext type' signature'
  simp [Left, h, hne]

theorem left_of_not_matches (h : ¬ l.Matches type signature) :
    Left l type signature = fun type' signature' =>
      l.type = type' ∧ signature' ∈ l.signatures := by
  funext type' signature'
  simp [Left, h]

section Remove

variable {behind : Bytes → Bytes} {type signature : Bytes}

theorem removeFromLists_cons {rest new : Bytes}
    (h : removeFromLists behind type signature (fuel + 1) (l.bytes ++ rest) new = .ok db') :
    ∃ new', removeFromList behind type signature (l.bytes ++ rest) new = .ok new' ∧
      removeFromLists behind type signature fuel rest new' = .ok db' := by
  have hne := isEmpty_eq_false_iff.mpr (l.bytes_ne_nil rest)
  simp only [removeFromLists, hne, l.readHeader_bytes, l.invalid_fields, Bool.false_eq_true,
    if_false, l.drop_bytes] at h
  exact bind_eq_ok.mp h

theorem matches_iff (l : SignatureList) : (l.fields.signatureSize - guidSize = signature.length ∧
    type = l.fields.signatureType) ↔ l.Matches type signature := by
  rw [signatureSize_sub, SignatureList.Matches, and_comm]
  exact and_congr_left' eq_comm

/-- A vacant list is passed over. -/
theorem removeFromLists_vacant {rest new : Bytes} (hvacant : l.Vacant type signature)
    (h : removeFromLists behind type signature (fuel + 1) (l.bytes ++ rest) new = .ok db') :
    removeFromLists behind type signature fuel rest new = .ok db' := by
  obtain ⟨new', hnew, hrest⟩ := removeFromLists_cons h
  have hplaces : l.fields.signaturePlaces = [] := by
    have hmap := l.map_signaturePlaces rest
    rwa [hvacant.2, map_eq_nil_iff] at hmap
  rw [removeFromList] at hnew
  simp only [l.readHeader_bytes, matches_iff, hvacant.1, if_true, hplaces, collectOthers] at hnew
  rwa [← Except.ok.inj hnew] at hrest

/-- A list of one signature leaves room for another list of one. -/
theorem room_of_single {s : Bytes} (hm : l.Matches type signature) (hsigs : l.signatures = [s]) :
    signature.length + 44 < 2 ^ 32 ∧ signature.length ≤ l.bytes.length := by
  have hsize : l.entries.length = 1 := by
    have := congrArg length hsigs
    rwa [SignatureList.signatures, length_map] at this
  have hfits := l.fits
  rw [hsize, hm.2] at hfits
  rw [l.length_bytes, SignatureList.listSize, hsize, hm.2]
  omega

theorem collectOthers_single (htype : type.length = 16) (hnull : isNull type = false)
    (hlong : 0 < signature.length) (hfits : signature.length + 44 < 2 ^ 32) {db : Bytes} {p : Nat}
    (hdb : signature.length ≤ db.length) (hstart : db.take signature.length ≠ signature) :
    collectOthers behind db type signature [p] none =
      .ok (some (zeroList type signature.length htype hlong hfits).bytes) := by
  have hlength : (bytesAt db 0 signature.length).length = signature.length := by
    rw [bytesAt, drop_zero, length_take, Nat.min_eq_left hdb]
  have hne : bytesAt db 0 signature.length ≠ [] := by
    intro hnil
    rw [hnil, length_nil] at hlength
    omega
  have hnew : appendSignatureToList behind none type (bytesAt db 0 signature.length) =
      .ok (zeroList type signature.length htype hlong hfits).bytes := by
    have hmod : (signature.length + 16) % 2 ^ 32 = signature.length + 16 := by omega
    rw [appendSignatureToList_none hnull hne, hlength, hmod, zeroList_bytes]
  rw [collectOthers, if_pos]
  · simp [hnew, collectOthers]
  · exact bne_iff_ne.mpr hstart

variable (htype : type.length = 16) (hnull : isNull type = false) (hlong : 28 < signature.length)
include htype hnull hlong

/-- One pass of the traversal adds what is left of the list. -/
theorem remove_step (ns : List SignatureList) {rest : Bytes}
    (hone : l.Matches type signature → l.signatures.length ≤ 1 ∧
      (l.signatures ≠ [] → l.bytes.take signature.length ≠ signature))
    (hheld : ns = [] ∨ (¬ l.Matches type signature → ∀ s ∈ l.signatures, Holds ns l.type s))
    (h : removeFromLists behind type signature (fuel + 1) (l.bytes ++ rest) (databaseBytes ns) =
      .ok db') :
    ∃ ns', removeFromLists behind type signature fuel rest (databaseBytes ns') = .ok db' ∧
      Adds ns ns' (Left l type signature) := by
  obtain ⟨new', hnew, hrest⟩ := removeFromLists_cons h
  rw [removeFromList] at hnew
  simp only [l.readHeader_bytes, matches_iff] at hnew
  by_cases hm : l.Matches type signature
  · rw [if_pos hm] at hnew
    cases hsigs : l.signatures with
    | nil =>
      refine ⟨ns, removeFromLists_vacant ⟨hm, hsigs⟩ h, adds_self fun type' signature' hleft => ?_⟩
      simp [Left, hm, hsigs] at hleft
    | cons s ss =>
      obtain ⟨hle, hstart⟩ := hone hm
      obtain rfl : ss = [] := by
        rw [hsigs, length_cons] at hle
        exact length_eq_zero_iff.mp (by omega)
      obtain ⟨p, hplaces, -⟩ := map_eq_singleton_iff.mp ((l.map_signaturePlaces rest).trans hsigs)
      obtain ⟨hfits, hbytes⟩ := room_of_single hm hsigs
      rw [hplaces, collectOthers_single htype hnull (by omega) hfits] at hnew
      · obtain ⟨ns', hrun, hadds⟩ :=
          appendList_zeroList htype (show 0 < signature.length by omega) hfits hnull ns
        simp only at hnew
        rw [hrun] at hnew
        rw [← Except.ok.inj hnew] at hrest
        rw [left_of_matches hm (by simp [hsigs])]
        exact ⟨ns', hrest, hadds⟩
      · rw [length_append]
        omega
      · rw [take_append_of_le_length hbytes]
        exact hstart (hsigs ▸ cons_ne_nil s [])
  · rw [if_neg hm] at hnew
    rw [left_of_not_matches hm]
    by_cases hnil : ns = []
    · subst hnil
      have hl := (appendList_short (Nat.zero_le _) l rest).symm.trans hnew
      refine ⟨[l], ?_, adds_append [] l⟩
      rw [← Except.ok.inj hl] at hrest
      simpa only [databaseBytes, flatMap_singleton] using hrest
    · have hall := (hheld.resolve_left hnil) hm
      rw [appendList_held hnil hall rest hnew] at hrest
      exact ⟨ns, hrest, adds_self fun type' signature' hl => hl.1 ▸ hall _ hl.2⟩

/-- The whole traversal, once the signatures that count are in the new database. -/
theorem remove_run {ns : List SignatureList} (hone : ∀ l ∈ ls, l.Matches type signature →
      l.signatures.length ≤ 1 ∧
        (l.signatures ≠ [] → l.bytes.take signature.length ≠ signature))
    (hfuel : ls.length ≤ fuel)
    (hheld : ∀ l ∈ ls, ¬ l.Matches type signature → ∀ s ∈ l.signatures, Holds ns l.type s)
    (h : removeFromLists behind type signature fuel (databaseBytes ls) (databaseBytes ns) =
      .ok db') :
    ∃ ns', db' = databaseBytes ns' ∧ Adds ns ns' fun type' signature' =>
      ∃ l ∈ ls, Left l type signature type' signature' := by
  induction ls generalizing ns fuel with
  | nil =>
    refine ⟨ns, ?_, adds_self (by simp)⟩
    cases fuel <;> exact (Except.ok.inj h).symm
  | cons l ls ih =>
    obtain ⟨fuel, rfl⟩ : ∃ n, fuel = n + 1 := ⟨fuel - 1, by rw [length_cons] at hfuel; omega⟩
    rw [forall_mem_cons] at hone hheld
    obtain ⟨ns1, hrest, hadds1⟩ := remove_step htype hnull hlong ns hone.1 (Or.inr hheld.1) h
    obtain ⟨ns', hdb, hadds'⟩ := ih hone.2 (by rw [length_cons] at hfuel; omega)
      (fun l' hl' hm s hs => (hadds1 _ _).mpr (Or.inl (hheld.2 l' hl' hm s hs))) hrest
    refine ⟨ns', hdb, fun type' signature' => ?_⟩
    rw [hadds', hadds1, or_assoc]
    simp [or_and_right, exists_or]

omit htype hnull hlong in
/-- What is left after removing a signature. -/
theorem exists_left_iff (hrem : Removable ls type signature) (type' signature' : Bytes) :
    (∃ l ∈ ls, Left l type signature type' signature') ↔
      Holds ls type' signature' ∧ ¬ (type' = type ∧ signature' = signature) := by
  constructor
  · rintro ⟨l, hl, hleft⟩
    rw [Left] at hleft
    split at hleft
    · next hm =>
      obtain ⟨hne, rfl, rfl⟩ := hleft
      obtain ⟨hholds, hzero⟩ := hrem.zero ⟨l, hl, hm, hne⟩
      exact ⟨hholds, fun h => hzero h.2.symm⟩
    · next hm =>
      obtain ⟨rfl, hmem⟩ := hleft
      refine ⟨⟨l, hl, rfl, hmem⟩, ?_⟩
      rintro ⟨htypes, rfl⟩
      exact hm ⟨htypes, (l.length_of_mem hmem).symm⟩
  · rintro ⟨⟨l, hl, rfl, hmem⟩, hne⟩
    refine ⟨l, hl, ?_⟩
    rw [Left]
    split
    · next hm =>
      refine ⟨ne_nil_of_mem hmem, hm.1, ?_⟩
      rcases hrem.single l hl hm with h | h | h
      · rw [h] at hmem
        cases hmem
      · rw [h, mem_singleton] at hmem
        exact absurd ⟨hm.1, hmem⟩ hne
      · rwa [h, mem_singleton] at hmem
    · exact ⟨rfl, hmem⟩

/-- The traversal from the start: vacant lists leave the new database empty, and what counts of the
later lists is in the first other one. -/
theorem remove_all (hone : ∀ l ∈ ls, l.Matches type signature →
      l.signatures.length ≤ 1 ∧
        (l.signatures ≠ [] → l.bytes.take signature.length ≠ signature))
    (hfuel : ls.length ≤ fuel)
    (hothers : ∀ l ∈ ls, ¬ l.Matches type signature → ∀ s ∈ l.signatures,
      ∃ f, ls.find? (fun l => ¬ l.Vacant type signature) = some f ∧ ¬ f.Matches type signature ∧
        f.type = l.type ∧ s ∈ f.signatures)
    (h : removeFromLists behind type signature fuel (databaseBytes ls) [] = .ok db') :
    ∃ ns, db' = databaseBytes ns ∧ Adds [] ns fun type' signature' =>
      ∃ l ∈ ls, Left l type signature type' signature' := by
  induction ls generalizing fuel with
  | nil => exact remove_run htype hnull hlong hone hfuel nofun h
  | cons f ls ih =>
    obtain ⟨fuel, rfl⟩ : ∃ n, fuel = n + 1 := ⟨fuel - 1, by rw [length_cons] at hfuel; omega⟩
    rw [forall_mem_cons] at hone
    have hlength : ls.length ≤ fuel := by
      rw [length_cons] at hfuel
      omega
    by_cases hvacant : f.Vacant type signature
    · have hfind : ∀ g, (f :: ls).find? (fun l => ¬ l.Vacant type signature) = some g →
          ls.find? (fun l => ¬ l.Vacant type signature) = some g := by
        intro g hg
        rwa [find?_cons_of_neg (by simpa using hvacant)] at hg
      obtain ⟨ns, hdb, hadds⟩ := ih hone.2 hlength (fun l hl hm s hs => by
        obtain ⟨g, hg, hrest⟩ := hothers l (mem_cons_of_mem f hl) hm s hs
        exact ⟨g, hfind g hg, hrest⟩) (removeFromLists_vacant hvacant h)
      refine ⟨ns, hdb, fun type' signature' => ?_⟩
      rw [hadds]
      simp [Left, hvacant.1, hvacant.2]
    · obtain ⟨ns1, hrest, hadds1⟩ := remove_step htype hnull hlong [] hone.1 (Or.inl rfl) h
      have hheld : ∀ l ∈ ls, ¬ l.Matches type signature → ∀ s ∈ l.signatures,
          Holds ns1 l.type s := by
        intro l hl hm s hs
        obtain ⟨g, hg, hgm, hgtype, hgs⟩ := hothers l (mem_cons_of_mem f hl) hm s hs
        rw [find?_cons_of_pos (by simpa using hvacant)] at hg
        cases hg
        rw [hadds1, left_of_not_matches hgm]
        exact Or.inr ⟨hgtype, hgs⟩
      obtain ⟨ns', hdb, hadds'⟩ := remove_run htype hnull hlong hone.2 hlength hheld hrest
      refine ⟨ns', hdb, fun type' signature' => ?_⟩
      rw [hadds', hadds1, or_assoc]
      simp [or_and_right, exists_or]

omit htype in
theorem remove_eq (ls : List SignatureList) :
    removeSignatureFromDatabase behind (databaseBytes ls) type signature =
      removeFromLists behind type signature (databaseBytes ls).length (databaseBytes ls) [] := by
  have hshort : ¬ signature.length ≤ listHeaderSize := by
    rw [listHeaderSize]
    omega
  simp only [removeSignatureFromDatabase, hnull, hshort, decide_false, Bool.or_self,
    Bool.false_eq_true, if_false, length_databaseBytes_le]
  split
  · next hnil => rw [hnil]; rfl
  · rfl

theorem removesFromSet_of_removable (hrem : Removable ls type signature) :
    RemovesFromSet behind (databaseBytes ls) type signature := by
  intro db' h
  rw [remove_eq hnull hlong] at h
  have hone : ∀ l ∈ ls, l.Matches type signature → l.signatures.length ≤ 1 ∧
      (l.signatures ≠ [] → l.bytes.take signature.length ≠ signature) := by
    intro l hl hm
    refine ⟨?_, hrem.start l hl hm⟩
    rcases hrem.single l hl hm with h | h | h <;> simp [h]
  have hfuel := length_le_databaseBytes ls
  obtain ⟨ns, hdb, hadds⟩ := remove_all htype hnull hlong hone (by omega) hrem.others h
  refine ⟨⟨ns, hdb⟩, fun type' signature' => ?_⟩
  rw [hdb, found_iff, found_iff, hadds, or_iff_right (not_holds_nil _ _), and_assoc]
  exact and_congr_right' (exists_left_iff hrem type' signature')

/-! ### Calls that fail -/

omit htype hnull hlong in
theorem appendList_grows {db list : Bytes} (hdb : listHeaderSize < db.length)
    (h : appendSignatureListToDatabase behind db list = .ok db') :
    listHeaderSize < db'.length := by
  simp only [appendSignatureListToDatabase, Nat.not_le.mpr hdb, if_false] at h
  split at h
  · cases h
  split at h
  · cases h
  · rwa [← Except.ok.inj h]
  · split at h
    · rwa [← Except.ok.inj h]
    · rw [← Except.ok.inj h, length_append]
      omega

omit htype hnull hlong in
theorem removeFromList_grows {db new new' : Bytes} (hnew : listHeaderSize < new.length)
    (h : removeFromList behind type signature db new = .ok new') :
    listHeaderSize < new'.length := by
  rw [removeFromList] at h
  split at h
  · split at h
    · cases h
    · rwa [← Except.ok.inj h]
    · exact appendList_grows hnew h
  · exact appendList_grows hnew h

omit htype hlong in
/-- A search for a signature of null type is refused. -/
theorem removeFromList_null {new rest : Bytes} (hl : isNull l.type = true) (hne : l.signatures ≠ [])
    (hnew : listHeaderSize < new.length) :
    removeFromList behind type signature (l.bytes ++ rest) new = .error .invalidParameter := by
  have hm : ¬ l.Matches type signature := by
    rintro ⟨rfl, -⟩
    rw [hl] at hnull
    cases hnull
  obtain ⟨p, ps, hplaces⟩ : ∃ p ps, l.fields.signaturePlaces = p :: ps := by
    refine exists_cons_of_ne_nil fun hnil => hne ?_
    rw [← l.map_signaturePlaces rest, hnil, map_nil]
  rw [removeFromList]
  simp only [l.readHeader_bytes, matches_iff, hm, if_false]
  simp only [appendSignatureListToDatabase, l.readHeader_bytes, l.invalid_fields,
    Bool.false_eq_true, Nat.not_le.mpr hnew, if_false, hplaces, collectNew,
    checkSignatureIsInDatabase, show l.fields.signatureType = l.type from rfl, hl, Bool.true_or,
    if_true]

omit htype hlong in
theorem remove_null {new : Bytes} (hnew : listHeaderSize < new.length) (hfuel : ls.length ≤ fuel)
    (hl : ∃ l ∈ ls, isNull l.type = true ∧ l.signatures ≠ []) :
    removeFromLists behind type signature fuel (databaseBytes ls) new ≠ .ok db' := by
  intro h
  induction ls generalizing fuel new with
  | nil =>
    obtain ⟨l, hl, -⟩ := hl
    cases hl
  | cons f ls ih =>
    obtain ⟨fuel, rfl⟩ : ∃ n, fuel = n + 1 := ⟨fuel - 1, by rw [length_cons] at hfuel; omega⟩
    obtain ⟨new', hstep, hrest⟩ := removeFromLists_cons h
    by_cases hf : isNull f.type = true ∧ f.signatures ≠ []
    · rw [removeFromList_null hnull hf.1 hf.2 hnew] at hstep
      cases hstep
    · obtain ⟨l, hmem, hl⟩ := hl
      rcases mem_cons.mp hmem with rfl | hmem
      · exact hf hl
      · exact ih (removeFromList_grows hnew hstep) (by rw [length_cons] at hfuel; omega)
          ⟨l, hmem, hl⟩ hrest

omit htype hnull hlong in
/-- The new database is no longer empty behind a list of another type or size. -/
theorem removeFromList_long {new new' rest : Bytes} (hm : ¬ l.Matches type signature)
    (h : removeFromList behind type signature (l.bytes ++ rest) new = .ok new') :
    listHeaderSize < new'.length := by
  by_cases hnew : listHeaderSize < new.length
  · exact removeFromList_grows hnew h
  · rw [removeFromList] at h
    simp only [l.readHeader_bytes, matches_iff, hm, if_false] at h
    rw [appendList_short (Nat.not_lt.mp hnew)] at h
    rw [← Except.ok.inj h, l.length_bytes]
    exact l.listSize_gt

omit htype in
/-- Removing is refused, and changes nothing. -/
theorem removesFromSet_of_refused (href : Refused ls type signature) :
    RemovesFromSet behind (databaseBytes ls) type signature := by
  intro db' h
  rw [remove_eq hnull hlong] at h
  have hfuel := length_le_databaseBytes ls
  generalize (databaseBytes ls).length = fuel at h hfuel
  obtain ⟨pre, l, post, rfl, hl, hne, f, hf, hm⟩ := href
  obtain ⟨front, mid, rfl⟩ := append_of_mem hf
  suffices hrun : ∀ new, ¬ removeFromLists behind type signature fuel
      (databaseBytes (front ++ f :: mid ++ l :: post)) new = .ok db' from (hrun [] h).elim
  clear h hf
  induction front generalizing fuel with
  | nil =>
    intro new h
    obtain ⟨fuel, rfl⟩ : ∃ n, fuel = n + 1 := ⟨fuel - 1, by simp at hfuel; omega⟩
    obtain ⟨new', hstep, hrest⟩ := removeFromLists_cons h
    exact remove_null hnull (removeFromList_long hm hstep) (by simp at hfuel ⊢; omega)
      ⟨l, by simp, hl, hne⟩ hrest
  | cons g front ih =>
    intro new h
    obtain ⟨fuel, rfl⟩ : ∃ n, fuel = n + 1 := ⟨fuel - 1, by simp at hfuel; omega⟩
    obtain ⟨new', -, hrest⟩ := removeFromLists_cons h
    exact ih fuel (by simp at hfuel ⊢; omega) new' hrest

end Remove

/-! ## The database as a set -/

/-- For every well-formed database, type and signature: appending works as on a set just when the
call fails, or the signature consists of zero bytes, or both it and the signature of zero bytes are
there already. Removing works as on a set when the call is `Refused` or the database is
`Removable`; otherwise it comes to the code that takes a signature at the wrong place. -/
theorem database_set_iff (behind : Bytes → Bytes) (ls : List SignatureList)
    {type signature : Bytes} (htype : type.length = 16) (hlong : 28 < signature.length) :
    (AppendsToSet behind (databaseBytes ls) type signature ↔
      isNull type = true ∨ Rejected signature.length ∨
      (signature.length + 44 < 2 ^ 32 ∧ signature = zeros signature.length) ∨
      (Found (databaseBytes ls) type signature ∧
        Found (databaseBytes ls) type (zeros signature.length))) ∧
    (isNull type = true ∨ Refused ls type signature ∨ Removable ls type signature →
      RemovesFromSet behind (databaseBytes ls) type signature) := by
  refine ⟨appendsToSet_iff htype hlong, fun hcond => ?_⟩
  cases hnull : isNull type with
  | true =>
    intro db' h
    simp only [removeSignatureFromDatabase, hnull, Bool.true_or, if_true] at h
    cases h
  | false =>
    rw [hnull] at hcond
    rcases hcond with h | href | hrem
    · cases h
    · exact removesFromSet_of_refused hnull hlong href
    · exact removesFromSet_of_removable htype hnull hlong hrem

/-- A list of one or two signatures of 29 bytes, each of one repeated byte. -/
def sampleList (type first : UInt8) (second : Option UInt8) : SignatureList where
  type := replicate 16 type
  header := []
  size := 29
  entries := (first :: second.toList).map fun b => (zeros 16, replicate 29 b)
  length_type := length_replicate
  size_pos := by decide
  length_entry := by simp [zeros]
  nonempty := Or.inr (cons_ne_nil _ _)
  size_fits := by decide
  fits := by cases second <;> simp

/-- Behind a list of another type, a list with the signature and one with the zero signature. -/
def removableLists : List SignatureList :=
  [sampleList 2 5 (some 6), sampleList 1 7 none, sampleList 1 0 none]

/-- The signature is there, and it alone is no longer found once it is removed. -/
theorem database_set_iff_sample :
    Found (databaseBytes removableLists) (replicate 16 1) (replicate 29 7) ∧
    RemovesFromSet (fun _ => []) (databaseBytes removableLists) (replicate 16 1)
      (replicate 29 7) := by
  refine ⟨by decide +kernel, (database_set_iff (fun _ => []) removableLists rfl (by decide)).2
    (Or.inr (Or.inr ⟨?_, ?_, ?_, ?_⟩))⟩
  · simp only [removableLists, forall_mem_cons, not_mem_nil, false_implies, implies_true, and_true]
    refine ⟨fun _ s hs => ⟨_, rfl, by decide, rfl, hs⟩, ?_, ?_⟩
    · exact fun h => absurd ⟨rfl, rfl⟩ h
    · exact fun h => absurd ⟨rfl, rfl⟩ h
  · simp only [removableLists, forall_mem_cons, not_mem_nil, false_implies, implies_true, and_true]
    exact ⟨fun h => absurd h (by decide), fun _ => Or.inr (Or.inl rfl), fun _ =>
      Or.inr (Or.inr rfl)⟩
  · exact fun _ => ⟨⟨sampleList 1 0 none, by simp [removableLists], rfl, mem_singleton_self _⟩,
      by decide⟩
  · decide +kernel

/-- A signature that is appended to an empty database is not found afterwards, and removing one
of two signatures loses the other. -/
theorem database_not_set :
    ¬ AppendsToSet (fun _ => []) (databaseBytes []) (replicate 16 1) (replicate 29 2) ∧
    ¬ RemovesFromSet (fun _ => []) (databaseBytes [sampleList 1 2 (some 3)]) (replicate 16 1)
      (replicate 29 2) := by
  constructor
  · intro h
    have hfound := (h _ (show _ = Except.ok (zeroList (replicate 16 1) 29 rfl (by decide)
      (by decide)).bytes by decide +kernel)).2 (replicate 16 1) (replicate 29 2)
    exact absurd (hfound.mpr (Or.inr ⟨rfl, rfl⟩)) (by decide +kernel)
  · intro h
    have hfound := (h _ (show _ = Except.ok (writeHeader ⟨replicate 16 1, 118, 0, 45⟩ ++
      zeros 45 ++ zeros 16 ++ (sampleList 1 2 (some 3)).bytes.take 29) by decide +kernel)).2
      (replicate 16 1) (replicate 29 3)
    exact absurd (hfound.mpr (by decide +kernel)) (by decide +kernel)

end Clover.SecureBoot
