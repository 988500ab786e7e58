import Clover.Lib.Reader

/-!
# The format of device properties

The text that `devprop_generate_string` of `Platform/device_inject.cpp` writes is the image of a
list of devices in hexadecimal digits. A device is a path, an ACPI node and PCI nodes behind it,
with properties, each a name and a value. The image has a length and a number of records; each
record has a length, a number of entries, the path, and the entries.

Here is the format itself: the bytes of an image, and a reader that checks all the lengths and
numbers. `decode_image` is their round trip.
-/

namespace Clover.Inject

open Clover.Lib Clover.Lib.Reader List

structure AcpiNode where
  hid : UInt32
  uid : UInt32
  deriving DecidableEq, Repr

structure PciNode where
  function : UInt8
  device : UInt8
  deriving DecidableEq, Repr

@[ext]
structure Path where
  acpi : AcpiNode
  pci : List PciNode
  deriving DecidableEq, Repr

/-- A name with a value. -/
structure Property where
  name : Bytes
  value : Bytes
  deriving DecidableEq, Repr

/-- A path with properties. -/
structure Device where
  path : Path
  properties : List Property
  deriving DecidableEq, Repr

def maxPciDevPaths : Nat := 16

/-! ## Bytes -/

/-- A name in 16-bit characters with a terminator, a value, and the sizes of both. -/
def Property.bytes (p : Property) : Bytes :=
  leBytes 4 (2 * p.name.length + 6) ++ (p.name.flatMap (fun c => [c, 0]) ++ ([0, 0] ++
    (leBytes 4 (p.value.length + 4) ++ p.value)))

def Property.size (p : Property) : Nat := 2 * p.name.length + p.value.length + 10

def PciNode.bytes (node : PciNode) : Bytes := [1, 1, 6, 0, node.function, node.device]

def Path.bytes (path : Path) : Bytes :=
  [2, 1, 12, 0] ++ (leBytes 4 path.acpi.hid.toNat ++ (leBytes 4 path.acpi.uid.toNat ++
    (path.pci.flatMap PciNode.bytes ++ [0x7f, 0xff, 4, 0])))

def Device.size (d : Device) : Nat :=
  24 + 6 * d.path.pci.length + (d.properties.map Property.size).sum

def Device.bytes (d : Device) : Bytes :=
  leBytes 4 d.size ++ (leBytes 2 d.properties.length ++ ([0, 0] ++
    (d.path.bytes ++ d.properties.flatMap Property.bytes)))

def imageSize (devices : List Device) : Nat := 12 + (devices.map Device.size).sum

/-- The image of `devices` that tells of a length and a number. -/
def imageBytes (length count : Nat) (devices : List Device) : Bytes :=
  leBytes 4 length ++ ([1, 0, 0, 0] ++ (leBytes 2 count ++ ([0, 0] ++
    devices.flatMap Device.bytes)))

theorem Property.length_bytes (p : Property) : p.bytes.length = p.size := by
  have hname : (p.name.flatMap fun c => [c, 0]).length = 2 * p.name.length := by
    induction p.name with
    | nil => rfl
    | cons c cs ih =>
      rw [flatMap_cons, length_append, ih, length_cons]
      simp only [length_cons, length_nil]
      omega
  simp only [bytes, size, length_append, length_leBytes, hname, length_cons,
    length_nil]
  omega

theorem length_flatMap_bytes {α : Type} (encode : α → Bytes) (size : α → Nat)
    (h : ∀ a, (encode a).length = size a) (as : List α) :
    (as.flatMap encode).length = (as.map size).sum := by
  induction as with
  | nil => rfl
  | cons a as ih => rw [flatMap_cons, length_append, map_cons, sum_cons, h, ih]

theorem Path.length_bytes (path : Path) : path.bytes.length = 16 + 6 * path.pci.length := by
  have hpci : (path.pci.flatMap PciNode.bytes).length = 6 * path.pci.length := by
    induction path.pci with
    | nil => rfl
    | cons node pci ih =>
      rw [flatMap_cons, length_append, ih, length_cons]
      simp only [PciNode.bytes, length_cons, length_nil]
      omega
  simp only [bytes, length_append, length_leBytes, hpci, length_cons, length_nil]
  omega

theorem Device.length_bytes (d : Device) : d.bytes.length = d.size := by
  simp only [bytes, size, length_append, length_leBytes, Path.length_bytes, length_cons,
    length_nil, length_flatMap_bytes _ _ Property.length_bytes]
  omega

theorem length_imageBytes (length count : Nat) (devices : List Device) :
    (imageBytes length count devices).length = imageSize devices := by
  simp only [imageBytes, imageSize, length_append, length_leBytes, length_cons,
    length_nil, length_flatMap_bytes _ _ Device.length_bytes]
  omega

/-! ## Readers -/

def readWide : Reader UInt8 := do
  let c ← byte
  literal [0]
  return c

/-- Read a name of wide characters, and a value. -/
def readProperty : Reader Property := do
  let n ← le 4
  check (6 ≤ n && n % 2 == 0)
  let name ← times ((n - 6) / 2) readWide
  literal [0, 0]
  let m ← le 4
  check (4 ≤ m)
  let value ← bytes (m - 4)
  return ⟨name, value⟩

/-- PCI nodes up to the end of the path. -/
def readNodes : Nat → Reader (List PciNode)
  | 0 => fail
  | n + 1 => do
    let type ← byte
    if type = 0x7f then do
      literal [0xff, 4, 0]
      return []
    else do
      check (type == 1)
      literal [1, 6, 0]
      let function ← byte
      let device ← byte
      let nodes ← readNodes n
      return ⟨function, device⟩ :: nodes

def readPath : Reader Path := do
  literal [2, 1, 12, 0]
  let hid ← le 4
  let uid ← le 4
  let pci ← readNodes (maxPciDevPaths + 1)
  return ⟨⟨UInt32.ofNat hid, UInt32.ofNat uid⟩, pci⟩

/-- A record without the check of its length. -/
def readFields : Reader (Nat × Device) := do
  let length ← le 4
  let count ← le 2
  literal [0, 0]
  let path ← readPath
  let properties ← times count readProperty
  return (length, ⟨path, properties⟩)

/-- Read a record, and check its length. -/
def readDevice : Reader Device := do
  let r ← counted readFields
  check (r.1.1 == r.2)
  return r.1.2

/-- The length that an image tells, and its devices. -/
def readImage : Reader (Nat × List Device) := do
  let length ← le 4
  literal [1, 0, 0, 0]
  let count ← le 2
  literal [0, 0]
  let devices ← times count readDevice
  return (length, devices)

/-! ## Round trips -/

/-- The sizes fit into their fields. -/
structure Property.Fits (p : Property) : Prop where
  name_lt : 2 * p.name.length + 6 < 256 ^ 4
  value_lt : p.value.length + 4 < 256 ^ 4

theorem reads_wide (c : UInt8) : Reads readWide [c, 0] c := by
  change Reads readWide ([c] ++ [0]) c
  exact reads_bind (reads_byte c) (reads_bind_pure (fun _ => c) (reads_literal [0]))

theorem reads_property {p : Property} (h : p.Fits) : Reads readProperty p.bytes p := by
  have hname : Reads (times ((2 * p.name.length + 6 - 6) / 2) readWide)
      (p.name.flatMap fun c => [c, 0]) p.name := by
    have hwide := reads_times (fun c => [c, 0]) id fun c (_ : c ∈ p.name) => reads_wide c
    rwa [map_id, show p.name.length = (2 * p.name.length + 6 - 6) / 2 by omega] at hwide
  refine reads_bind (reads_le h.name_lt) ?_
  refine reads_check_bind (by simp) ?_
  refine reads_bind hname ?_
  refine reads_bind (reads_literal _) ?_
  refine reads_bind (reads_le h.value_lt) ?_
  refine reads_check_bind (by simp) ?_
  exact reads_bind_pure _ (reads_bytes_of_length (Nat.add_sub_cancel _ _).symm)

theorem reads_nodes {n : Nat} {pci : List PciNode} (h : pci.length < n) :
    Reads (readNodes n) (pci.flatMap PciNode.bytes ++ [0x7f, 0xff, 4, 0]) pci := by
  induction pci generalizing n with
  | nil =>
    obtain ⟨n, rfl⟩ : ∃ m, n = m + 1 := ⟨n - 1, by omega⟩
    change Reads (readNodes (n + 1)) ([0x7f] ++ [0xff, 4, 0]) []
    refine reads_bind (reads_byte _) ?_
    exact reads_bind_pure (fun _ => []) (reads_literal _)
  | cons node pci ih =>
    obtain ⟨n, rfl⟩ : ∃ m, n = m + 1 := ⟨n - 1, by omega⟩
    change Reads (readNodes (n + 1)) ([1] ++ ([1, 6, 0] ++ ([node.function] ++ ([node.device] ++
      (pci.flatMap PciNode.bytes ++ [0x7f, 0xff, 4, 0]))))) (node :: pci)
    refine reads_bind (reads_byte _) ?_
    refine reads_check_bind rfl ?_
    refine reads_bind (reads_literal _) ?_
    refine reads_bind (reads_byte _) ?_
    refine reads_bind (reads_byte _) ?_
    exact reads_bind_pure _ (ih (Nat.lt_of_succ_lt_succ h))

theorem reads_path {path : Path} (h : path.pci.length ≤ maxPciDevPaths) :
    Reads readPath path.bytes path := by
  have hread : Reads readPath path.bytes
      ⟨⟨UInt32.ofNat path.acpi.hid.toNat, UInt32.ofNat path.acpi.uid.toNat⟩, path.pci⟩ := by
    refine reads_bind (reads_literal _) ?_
    refine reads_bind (reads_le path.acpi.hid.toNat_lt) ?_
    refine reads_bind (reads_le path.acpi.uid.toNat_lt) ?_
    exact reads_bind_pure _ (reads_nodes (Nat.lt_succ_of_le h))
  rwa [UInt32.ofNat_toNat, UInt32.ofNat_toNat] at hread

/-- The path of a device has a length that is read, and its sizes fit into their fields, apart from
the number of its properties. -/
structure Device.Fits (d : Device) : Prop where
  pci_le : d.path.pci.length ≤ maxPciDevPaths
  size_lt : d.size < 256 ^ 4
  property_fits : ∀ p ∈ d.properties, p.Fits

theorem reads_device {d : Device} (h : d.Fits) (hcount : d.properties.length < 256 ^ 2) :
    Reads readDevice d.bytes d := by
  have hfields : Reads readFields d.bytes (d.size, d) := by
    have hproperties : Reads (times d.properties.length readProperty)
        (d.properties.flatMap Property.bytes) d.properties := by
      have hread := reads_times Property.bytes id fun p hp => reads_property (h.property_fits p hp)
      rwa [map_id] at hread
    refine reads_bind (reads_le h.size_lt) ?_
    refine reads_bind (reads_le hcount) ?_
    refine reads_bind (reads_literal _) ?_
    refine reads_bind (reads_path h.pci_le) ?_
    exact reads_bind_pure _ hproperties
  have hcounted := reads_counted hfields
  rw [Device.length_bytes] at hcounted
  have hread : Reads readDevice (d.bytes ++ []) d :=
    reads_bind hcounted (reads_check_bind (beq_self_eq_true _) (reads_pure d))
  rwa [append_nil] at hread

/-- A record with too many properties tells of fewer, and cannot be read: what is read is shorter
than its length. -/
theorem readDevice_eq_none {d : Device} (h : d.Fits) (hcount : 256 ^ 2 ≤ d.properties.length)
    (rest : Bytes) : readDevice (d.bytes ++ rest) = none := by
  let m := d.properties.length % 2 ^ (8 * 2)
  let read : Device := ⟨d.path, d.properties.take m⟩
  let front := leBytes 4 d.size ++ (leBytes 2 m ++ ([0, 0] ++ (d.path.bytes ++
    (d.properties.take m).flatMap Property.bytes)))
  have hm : m < d.properties.length := Nat.lt_of_lt_of_le (Nat.mod_lt _ (by decide)) hcount
  have hsplit : d.bytes = front ++ (d.properties.drop m).flatMap Property.bytes := by
    have hall : d.properties.flatMap Property.bytes = (d.properties.take m).flatMap
        Property.bytes ++ (d.properties.drop m).flatMap Property.bytes := by
      rw [← flatMap_append, take_append_drop]
    simp only [Device.bytes, front, m, leBytes_mod, append_assoc]
    rw [hall]
  have hproperties : Reads (times m readProperty)
      ((d.properties.take m).flatMap Property.bytes) (d.properties.take m) := by
    have hread := reads_times Property.bytes id fun p (hp : p ∈ d.properties.take m) =>
      reads_property (h.property_fits p (mem_of_mem_take hp))
    rwa [map_id, length_take, Nat.min_eq_left (Nat.le_of_lt hm)] at hread
  have hfields : Reads readFields front (d.size, read) := by
    refine reads_bind (reads_le h.size_lt) ?_
    refine reads_bind (reads_le (Nat.mod_lt _ (by decide))) ?_
    refine reads_bind (reads_literal _) ?_
    refine reads_bind (reads_path h.pci_le) ?_
    exact reads_bind_pure _ hproperties
  have hshort : front.length < d.size := by
    have hlength := congrArg length hsplit
    rw [Device.length_bytes, length_append, length_flatMap_bytes _ _ Property.length_bytes,
      drop_eq_getElem_cons hm, map_cons, sum_cons] at hlength
    have hpos : 0 < (d.properties[m]).size := by
      unfold Property.size
      omega
    omega
  have hcheck : (d.size == front.length) = false := beq_eq_false_iff_ne.mpr (by omega)
  rw [hsplit, append_assoc]
  change (counted readFields (front ++ _)).bind _ = none
  rw [reads_counted hfields, Option.bind_some]
  change (check (d.size == front.length) _).bind _ = none
  rw [hcheck]
  rfl

/-! ## Text -/

def hexChar (n : Nat) : Char := if n < 10 then Char.ofNat (48 + n) else Char.ofNat (55 + n)

/-- A number in `n` digits, as the conversions `%0nX` write it. -/
def hexDigits : Nat → Nat → List Char
  | 0, _ => []
  | n + 1, v => hexDigits n (v / 16) ++ [hexChar (v % 16)]

def hexText (bytes : Bytes) : List Char := bytes.flatMap fun b => hexDigits 2 b.toNat

def unhexChar (c : Char) : Option Nat :=
  (range 16).find? fun n => hexChar n == c

/-- The bytes of a text of hexadecimal digits. -/
def unhex : List Char → Option Bytes
  | [] => some []
  | hi :: lo :: rest => do
    let h ← unhexChar hi
    let l ← unhexChar lo
    let bytes ← unhex rest
    return UInt8.ofNat (16 * h + l) :: bytes
  | [_] => none

/-- The length that the text tells, and its devices. -/
def decode (text : List Char) : Option (Nat × List Device) := do
  let bytes ← unhex text
  match readImage bytes with
  | some (image, []) => some image
  | _ => none

theorem unhexChar_hexChar : ∀ n < 16, unhexChar (hexChar n) = some n := by decide

theorem unhex_hexText (bytes : Bytes) : unhex (hexText bytes) = some bytes := by
  induction bytes with
  | nil => rfl
  | cons b bytes ih =>
    have hb := b.toNat_lt
    have hvalue : 16 * (b.toNat / 16 % 16) + b.toNat % 16 = b.toNat := by omega
    change (unhexChar (hexChar (b.toNat / 16 % 16))).bind _ = _
    rw [unhexChar_hexChar _ (Nat.mod_lt _ (by decide)), Option.bind_some]
    change (unhexChar (hexChar (b.toNat % 16))).bind _ = _
    rw [unhexChar_hexChar _ (Nat.mod_lt _ (by decide)), Option.bind_some]
    change (unhex (hexText bytes)).bind _ = _
    rw [ih, Option.bind_some, hvalue, UInt8.ofNat_toNat]
    rfl

theorem length_hexText (bytes : Bytes) : (hexText bytes).length = 2 * bytes.length := by
  induction bytes with
  | nil => rfl
  | cons b bytes ih =>
    rw [hexText, flatMap_cons, length_append, ← hexText, ih, length_cons]
    simp only [hexDigits, length_append, length_cons, length_nil]
    omega

/-- An image is decoded to its devices if its numbers fit. -/
theorem decode_image {length : Nat} {devices : List Device} (hlength : length < 256 ^ 4)
    (hcount : devices.length < 256 ^ 2) (hfits : ∀ d ∈ devices, d.Fits)
    (hproperties : ∀ d ∈ devices, d.properties.length < 256 ^ 2) :
    decode (hexText (imageBytes length devices.length devices)) = some (length, devices) := by
  have hdevices : Reads (times devices.length readDevice) (devices.flatMap Device.bytes)
      devices := by
    have hread := reads_times Device.bytes id fun d hd =>
      reads_device (hfits d hd) (hproperties d hd)
    rwa [map_id] at hread
  have himage : Reads readImage (imageBytes length devices.length devices) (length, devices) := by
    refine reads_bind (reads_le hlength) ?_
    refine reads_bind (reads_literal _) ?_
    refine reads_bind (reads_le hcount) ?_
    refine reads_bind (reads_literal _) ?_
    exact reads_bind_pure _ hdevices
  have hread := himage []
  rw [append_nil] at hread
  rw [decode, unhex_hexText]
  change (match readImage _ with | some (image, []) => some image | _ => none) = _
  rw [hread]

end Clover.Inject
