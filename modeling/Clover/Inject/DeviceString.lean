import Clover.Inject.Format

/-!
# Building the device string

The functions `devprop_create_string`, `devprop_add_device_pci`, `devprop_add_value` and
`devprop_generate_string` of `Platform/device_inject.cpp`. The string keeps a list of devices;
adding a device or a value keeps the lengths and numbers of the string and of the device up to date,
and the text is generated from them at the end.

A `Registry` is what the string stands for: the devices, and which of them each call has returned.
`run_eq_conc` says that the string is at any time the one of the registry, as long as the lengths
fit into 32 bits.
-/

namespace Clover.Inject

open Clover.Lib List

variable {p : Property} {d : Device} {devices : List Device}

/-! ## The string -/

structure AcpiDevPath where
  type : UInt8
  subtype : UInt8
  length : Nat
  hid : UInt32
  uid : UInt32
  deriving DecidableEq, Repr

structure PciDevPath where
  type : UInt8
  subtype : UInt8
  length : Nat
  function : UInt8
  device : UInt8
  deriving DecidableEq, Repr

structure DevicePathEnd where
  type : UInt8
  subtype : UInt8
  length : Nat
  deriving DecidableEq, Repr

/-- The structure `DevPropDevice`, with the first `num_pci_devpaths` elements of its array. -/
structure DevPropDevice where
  length : Nat
  numentries : Nat
  what2 : Nat
  acpiDevPath : AcpiDevPath
  pciDevPath : List PciDevPath
  pathEnd : DevicePathEnd
  data : Option Bytes
  deriving DecidableEq, Repr

structure DevPropString where
  length : Nat
  what2 : Nat
  numentries : Nat
  what3 : Nat
  entries : List DevPropDevice
  deriving DecidableEq, Repr

/-- The nodes of a device path. -/
inductive PathNode where
  | acpi (hid uid : UInt32)
  | pci (function device : UInt8)
  | other
  deriving DecidableEq, Repr

def devpropCreateString : DevPropString :=
  { length := 12, what2 := 0x01000000, numentries := 0, what3 := 0, entries := [] }

/-- Only the PCI nodes are compared. -/
def sameDevice (d₁ d₂ : DevPropDevice) : Bool :=
  d₁.pciDevPath.length == d₂.pciDevPath.length &&
    (d₁.pciDevPath.zip d₂.pciDevPath).all fun p =>
      p.1.function == p.2.function && p.1.device == p.2.device

/-- The loop that copies the PCI nodes, up to a number of them. -/
def copyPci : Nat → List PathNode → List PciDevPath
  | n + 1, .pci function device :: rest => ⟨1, 1, 6, function, device⟩ :: copyPci n rest
  | _, _ => []

/-- The device is returned as its index in the string. -/
def devpropAddDevicePci (s : DevPropString) (devicePath : List PathNode) :
    DevPropString × Option Nat :=
  match devicePath with
  | .acpi _ uid :: rest =>
    let pciDevPath := copyPci maxPciDevPaths rest
    if pciDevPath.length = 0 then (s, none)
    else
      let device : DevPropDevice :=
        { length := 24 + 6 * pciDevPath.length
          numentries := 0
          what2 := 0
          acpiDevPath := ⟨2, 1, 0x0c, 0x0a0341d0, if uid ≠ 0 then 0x80 else 0⟩
          pciDevPath
          pathEnd := ⟨0x7f, 0xff, 4⟩
          data := none }
      match s.entries.findIdx? (sameDevice · device) with
      | some i => (s, some i)
      | none =>
        ({ s with
            length := (s.length + device.length) % 2 ^ 32
            numentries := (s.numentries + 1) % 2 ^ 16
            entries := s.entries ++ [device] },
          some s.entries.length)
  | _ => (s, none)

/-- The bytes that `devprop_add_value` makes of a name and a value. -/
def valueData (nm vl : Bytes) : Bytes :=
  let l := nm.length
  [UInt8.ofNat (2 * l + 6), UInt8.ofNat ((2 * l + 6) / 256), 0, 0] ++
    (nm.flatMap (fun c => [c, 0]) ++ ([0, 0] ++ (leBytes 4 (vl.length + 4) ++ vl)))

/-- The offset of the end of the data that a device has. -/
def dataOffset (d : DevPropDevice) : Nat :=
  (d.length + 2 ^ 32 - (24 + 6 * d.pciDevPath.length)) % 2 ^ 32

/-- The data of the device with a value more. -/
def addData (d : DevPropDevice) (nm vl : Bytes) : DevPropDevice :=
  let length := (2 * nm.length + vl.length + 2 * 4 + 2) % 2 ^ 32
  let offset := dataOffset d
  let old := match d.data with
    | some data => if offset > 1 then data.take offset else replicate offset 0
    | none => replicate offset 0
  { d with
    length := (d.length + length) % 2 ^ 32
    numentries := (d.numentries + 1) % 2 ^ 16
    data := some (old ++ valueData nm vl) }

/-- The value `none` is a `NULL` pointer. -/
def devpropAddValue (s : DevPropString) (device : Option Nat) (nm : Bytes)
    (vl : Option Bytes) : DevPropString × Bool :=
  match device, vl with
  | some i, some vl =>
    ({ s with
        length := (s.length + (2 * nm.length + vl.length + 2 * 4 + 2) % 2 ^ 32) % 2 ^ 32
        entries := s.entries.modify i fun d => addData d nm vl },
      true)
  | _, _ => (s, false)

/-! ## The text -/

def swapBytes16 (v : Nat) : Nat := v % 256 * 256 + v / 256

def swapBytes32 (v : Nat) : Nat := swapBytes16 (v % 65536) * 65536 + swapBytes16 (v / 65536)

def pciText (node : PciDevPath) : List Char :=
  hexDigits 2 node.type.toNat ++ hexDigits 2 node.subtype.toNat ++
    hexDigits 4 (swapBytes16 node.length) ++ hexDigits 2 node.function.toNat ++
    hexDigits 2 node.device.toNat

/-- A device without data is passed over. -/
def deviceText (d : DevPropDevice) : List Char :=
  match d.data with
  | none => []
  | some data =>
    hexDigits 8 (swapBytes32 d.length) ++ hexDigits 4 (swapBytes16 d.numentries) ++
      hexDigits 4 d.what2 ++
      hexDigits 2 d.acpiDevPath.type.toNat ++ hexDigits 2 d.acpiDevPath.subtype.toNat ++
      hexDigits 4 (swapBytes16 d.acpiDevPath.length) ++
      hexDigits 8 (swapBytes32 d.acpiDevPath.hid.toNat) ++
      hexDigits 8 (swapBytes32 d.acpiDevPath.uid.toNat) ++
      d.pciDevPath.flatMap pciText ++
      hexDigits 2 d.pathEnd.type.toNat ++ hexDigits 2 d.pathEnd.subtype.toNat ++
      hexDigits 4 (swapBytes16 d.pathEnd.length) ++
      hexText (data.take (dataOffset d))

/-- The text of the string, in hexadecimal digits. -/
def devpropGenerateString (s : DevPropString) : List Char :=
  hexDigits 8 (swapBytes32 s.length) ++ hexDigits 8 s.what2 ++
    hexDigits 4 (swapBytes16 s.numentries) ++ hexDigits 4 s.what3 ++
    (s.entries.take s.numentries).flatMap deviceText

theorem hexDigits_append (n m v : Nat) :
    hexDigits (n + m) v = hexDigits n (v / 16 ^ m) ++ hexDigits m v := by
  induction m generalizing v with
  | zero => simp [hexDigits]
  | succ m ih =>
    rw [← Nat.add_assoc, hexDigits, ih, hexDigits, append_assoc, Nat.div_div_eq_div_mul,
      Nat.pow_succ, Nat.mul_comm 16]

theorem hexDigits_mod (n v : Nat) : hexDigits n (v % 16 ^ n) = hexDigits n v := by
  induction n generalizing v with
  | zero => rfl
  | succ n ih =>
    have hlow : v % 16 ^ (n + 1) % 16 = v % 16 := by
      rw [Nat.pow_succ, Nat.mul_comm]
      exact Nat.mod_mul_right_mod v 16 (16 ^ n)
    have hhigh : v % 16 ^ (n + 1) / 16 = v / 16 % 16 ^ n := by
      rw [Nat.pow_succ, Nat.mul_comm, Nat.mod_mul_right_div_self]
    rw [hexDigits, hexDigits, hlow, hhigh, ih]

/-- The digits of a number with its bytes swapped are those of its bytes in memory. -/
theorem hexDigits_swapBytes16 {v : Nat} (h : v < 2 ^ 16) :
    hexDigits 4 (swapBytes16 v) = hexText (leBytes 2 v) := by
  have hlow : (UInt8.ofNat v).toNat = v % 256 := UInt8.toNat_ofNat'
  have hhigh : (UInt8.ofNat (v / 256)).toNat = v / 256 % 256 := UInt8.toNat_ofNat'
  have hswap : swapBytes16 v / 16 ^ 2 = v % 256 ∧ swapBytes16 v % 16 ^ 2 = v / 256 % 256 := by
    unfold swapBytes16
    omega
  rw [hexDigits_append 2 2, ← hexDigits_mod 2 (swapBytes16 v), hswap.1, hswap.2]
  simp [hexText, leBytes, hlow, hhigh]

theorem hexDigits_swapBytes32 {v : Nat} (h : v < 2 ^ 32) :
    hexDigits 8 (swapBytes32 v) = hexText (leBytes 4 v) := by
  have hswap : swapBytes32 v / 16 ^ 4 = swapBytes16 (v % 65536) ∧
      swapBytes32 v % 16 ^ 4 = swapBytes16 (v / 65536) := by
    unfold swapBytes32 swapBytes16
    omega
  have hbytes : leBytes 4 v = leBytes 2 (v % 65536) ++ leBytes 2 (v / 65536) := by
    rw [show v % 65536 = v % 2 ^ (8 * 2) from rfl, leBytes_mod]
    simp only [leBytes, Nat.div_div_eq_div_mul]
    rfl
  rw [hexDigits_append 4 4, ← hexDigits_mod 4 (swapBytes32 v), hswap.1, hswap.2,
    hexDigits_swapBytes16 (by omega), hexDigits_swapBytes16 (by omega), hbytes]
  simp [hexText]

/-! ## Calls -/

/-- A device path that names a device: an ACPI node with PCI nodes behind it. -/
structure DevicePath extends Path where
  pci_ne : pci ≠ []
  pci_le : pci.length ≤ maxPciDevPaths
  deriving DecidableEq

def DevicePath.nodes (path : DevicePath) : List PathNode :=
  .acpi path.acpi.hid path.acpi.uid :: path.pci.map fun node => .pci node.function node.device

/-- A value with an ASCII name. The bytes of an empty value can be at `NULL`, as those of an empty
`XBuffer` are. -/
structure Value extends Property where
  ascii : ∀ c ∈ name, 0 < c ∧ c < 128
  short : name.length < 32000
  null : Bool
  null_empty : null = true → value = []

/-- The argument `vl`. -/
def Value.pointer (v : Value) : Option Bytes := if v.null then none else some v.value

/-- The calls between the creation of the string and the generation of its text. A value is added to
the device that an earlier call, told by its number, has returned. -/
inductive Call where
  | addDevice (path : DevicePath)
  | addValue (device : Nat) (value : Value)

/-- The call does not pass `NULL` for a value. -/
def Call.addressed : Call → Bool
  | .addDevice _ => true
  | .addValue _ value => !value.null

/-- The string, and what the calls of `devprop_add_device_pci` have returned. -/
structure Builder where
  string : DevPropString
  returned : List (Option Nat)
  deriving DecidableEq

def Builder.step (b : Builder) : Call → Builder
  | .addDevice path =>
    let r := devpropAddDevicePci b.string path.nodes
    ⟨r.1, b.returned ++ [r.2]⟩
  | .addValue device value =>
    ⟨(devpropAddValue b.string (b.returned.getD device none) value.name value.pointer).1,
      b.returned⟩

def Builder.run (calls : List Call) : Builder := calls.foldl step ⟨devpropCreateString, []⟩

/-! ## Registries -/

/-- Devices with their properties, and the device that each call has returned. -/
structure Registry where
  devices : List Device
  returned : List Nat
  deriving DecidableEq

namespace Registry

section

variable {κ : Type} [DecidableEq κ] (key : Path → κ) (norm : Path → Path)

/-- Devices are told apart by `key`, and a new one is entered under the path `norm` makes of its
own. -/
def step (r : Registry) : Call → Registry
  | .addDevice path =>
    match r.devices.findIdx? fun d => key d.path = key path.toPath with
    | some i => { r with returned := r.returned ++ [i] }
    | none => ⟨r.devices ++ [⟨norm path.toPath, []⟩], r.returned ++ [r.devices.length]⟩
  | .addValue device value =>
    match r.returned[device]? with
    | none => r
    | some i =>
      { r with
        devices := r.devices.modify i fun d => ⟨d.path, d.properties ++ [value.toProperty]⟩ }

def run (calls : List Call) : Registry := calls.foldl (step key norm) ⟨[], []⟩

theorem run_append (calls : List Call) (call : Call) :
    run key norm (calls ++ [call]) = step key norm (run key norm calls) call := by
  rw [run, foldl_append]
  rfl

end

end Registry

/-- The path as `devprop_add_device_pci` writes it: the ACPI node becomes a PCI root, number 0 or
0x80. -/
def written (path : Path) : Path :=
  ⟨⟨0x0a0341d0, if path.acpi.uid ≠ 0 then 0x80 else 0⟩, path.pci⟩

/-- The entry of a device that was not there before. -/
def fresh (path : DevicePath) : Device := ⟨written path.toPath, []⟩

/-- The registry of the string: devices are told apart by their PCI nodes, and a value at `NULL` is
not entered. -/
def merged (calls : List Call) : Registry :=
  Registry.run Path.pci written (calls.filter Call.addressed)

/-! ## The string of a registry -/

def concPci (node : PciNode) : PciDevPath := ⟨1, 1, 6, node.function, node.device⟩

def concDevice (d : Device) : DevPropDevice :=
  { length := d.size
    numentries := d.properties.length % 2 ^ 16
    what2 := 0
    acpiDevPath := ⟨2, 1, 0x0c, d.path.acpi.hid, d.path.acpi.uid⟩
    pciDevPath := d.path.pci.map concPci
    pathEnd := ⟨0x7f, 0xff, 4⟩
    data := if d.properties = [] then none else some (d.properties.flatMap Property.bytes) }

def concString (devices : List Device) : DevPropString :=
  { length := imageSize devices
    what2 := 0x01000000
    numentries := devices.length
    what3 := 0
    entries := devices.map concDevice }

theorem copyPci_map {n : Nat} {pci : List PciNode} (h : pci.length ≤ n) :
    copyPci n (pci.map fun node => .pci node.function node.device) = pci.map concPci := by
  induction pci generalizing n with
  | nil => cases n <;> rfl
  | cons node pci ih =>
    cases n with
    | zero => cases h
    | succ n =>
      rw [map_cons, copyPci, ih (Nat.le_of_succ_le_succ h)]
      rfl

theorem all_zip_eq_iff (as bs : List PciNode) :
    (as.map concPci).length = (bs.map concPci).length ∧
      ((as.map concPci).zip (bs.map concPci)).all (fun p =>
        p.1.function == p.2.function && p.1.device == p.2.device) ↔ as = bs := by
  induction as generalizing bs with
  | nil => cases bs <;> simp
  | cons a as ih =>
    cases bs with
    | nil => simp
    | cons b bs =>
      obtain ⟨af, ad⟩ := a
      obtain ⟨bf, bd⟩ := b
      simp only [map_cons, length_cons, zip_cons_cons, all_cons, concPci,
        cons.injEq, PciNode.mk.injEq, Bool.and_eq_true, beq_iff_eq, ← ih,
        Nat.add_right_cancel_iff]
      tauto

theorem sameDevice_concDevice (d e : Device) :
    sameDevice (concDevice d) (concDevice e) = decide (d.path.pci = e.path.pci) := by
  rw [Bool.eq_iff_iff, sameDevice, Bool.and_eq_true, beq_iff_eq, decide_eq_true_iff]
  exact all_zip_eq_iff d.path.pci e.path.pci

theorem valueData_eq_bytes (h : p.name.length < 32000) : valueData p.name p.value = p.bytes := by
  have hsize : leBytes 4 (2 * p.name.length + 6) =
      [UInt8.ofNat (2 * p.name.length + 6), UInt8.ofNat ((2 * p.name.length + 6) / 256), 0, 0] := by
    have hhigh : (2 * p.name.length + 6) / 256 / 256 = 0 := by omega
    simp only [leBytes, hhigh]
    rfl
  rw [Property.bytes, hsize]
  rfl

theorem dataOffset_concDevice (h : d.size < 2 ^ 32) :
    dataOffset (concDevice d) = (d.properties.map Property.size).sum := by
  have hpci : (concDevice d).pciDevPath.length = d.path.pci.length := length_map ..
  change (d.size + _ - _) % _ = _
  unfold Device.size at *
  omega

theorem size_append_property (d : Device) (p : Property) :
    Device.size ⟨d.path, d.properties ++ [p]⟩ = d.size + p.size := by
  simp only [Device.size, map_append, sum_append, map_cons, map_nil,
    sum_cons, sum_nil]
  omega

/-- Adding a value to a device of the registry. -/
theorem addData_concDevice (hname : p.name.length < 32000) (hsize : d.size + p.size < 2 ^ 32) :
    addData (concDevice d) p.name p.value = concDevice ⟨d.path, d.properties ++ [p]⟩ := by
  have hoffset := dataOffset_concDevice (d := d) (by omega)
  have hlength : (d.size + (2 * p.name.length + p.value.length + 2 * 4 + 2) % 2 ^ 32) % 2 ^ 32 =
      Device.size ⟨d.path, d.properties ++ [p]⟩ := by
    rw [size_append_property]
    unfold Property.size at *
    omega
  have hnum : (d.properties.length % 2 ^ 16 + 1) % 2 ^ 16 =
      (d.properties ++ [p]).length % 2 ^ 16 := by
    rw [length_append, length_singleton]
    omega
  have hold : (match (concDevice d).data with
      | some data => if dataOffset (concDevice d) > 1 then data.take (dataOffset (concDevice d))
        else replicate (dataOffset (concDevice d)) 0
      | none => replicate (dataOffset (concDevice d)) 0) =
      d.properties.flatMap Property.bytes := by
    rw [hoffset, concDevice]
    by_cases hnil : d.properties = []
    · rw [if_pos hnil, hnil]
      rfl
    · obtain ⟨q, qs, hcons⟩ := exists_cons_of_ne_nil hnil
      have hpos : (d.properties.map Property.size).sum > 1 := by
        rw [hcons, map_cons, sum_cons, Property.size]
        omega
      rw [if_neg hnil]
      dsimp only
      rw [if_pos hpos, take_of_length_le]
      exact Nat.le_of_eq (length_flatMap_bytes _ _ Property.length_bytes _)
  have hdata : (d.properties ++ [p]).flatMap Property.bytes =
      d.properties.flatMap Property.bytes ++ p.bytes := by
    rw [flatMap_append, flatMap_singleton]
  rw [addData, hold, valueData_eq_bytes hname, ← hdata]
  dsimp only [concDevice]
  rw [hlength, hnum, if_neg (by simp)]

/-! ## The string follows the registry -/

theorem imageSize_append (devices : List Device) (d : Device) :
    imageSize (devices ++ [d]) = imageSize devices + d.size := by
  simp only [imageSize, map_append, sum_append, map_cons, map_nil,
    sum_cons, sum_nil]
  omega

theorem le_sum_map {α : Type} (size : α → Nat) {a : α} {as : List α} (h : a ∈ as) :
    size a ≤ (as.map size).sum := by
  induction as with
  | nil => cases h
  | cons b as ih =>
    rcases mem_cons.mp h with rfl | h
    · exact Nat.le_add_right _ _
    · exact Nat.le_trans (ih h) (Nat.le_add_left _ _)

theorem sum_map_modify {α : Type} (size : α → Nat) {f : α → α} {n : Nat}
    (hf : ∀ a, size (f a) = size a + n) {as : List α} {i : Nat} (hi : i < as.length) :
    ((as.modify i f).map size).sum = (as.map size).sum + n := by
  induction as generalizing i with
  | nil => cases hi
  | cons a as ih =>
    cases i with
    | zero =>
      rw [modify_zero_cons, map_cons, sum_cons, hf, map_cons, sum_cons]
      omega
    | succ i =>
      rw [modify_succ_cons, map_cons, sum_cons, ih (Nat.lt_of_succ_lt_succ hi), map_cons, sum_cons]
      omega

theorem size_le_imageSize (h : d ∈ devices) : d.size ≤ imageSize devices :=
  Nat.le_trans (le_sum_map Device.size h) (Nat.le_add_left _ _)

/-- Enter a property for the device at `i`. -/
def enter (devices : List Device) (i : Nat) (p : Property) : List Device :=
  devices.modify i fun d => ⟨d.path, d.properties ++ [p]⟩

theorem imageSize_enter {i : Nat} (hi : i < devices.length) (p : Property) :
    imageSize (enter devices i p) = imageSize devices + p.size := by
  have hsum := sum_map_modify Device.size (fun d => size_append_property d p) hi
  rw [imageSize, enter, hsum, imageSize, Nat.add_assoc]

theorem concString_enter {i : Nat} (hi : i < devices.length) (hname : p.name.length < 32000)
    (hsize : imageSize devices + p.size < 2 ^ 32) :
    (devpropAddValue (concString devices) (some i) p.name (some p.value)).1 =
      concString (enter devices i p) := by
  have hlength : (imageSize devices + (2 * p.name.length + p.value.length + 2 * 4 + 2) % 2 ^ 32) %
      2 ^ 32 = imageSize (enter devices i p) := by
    rw [imageSize_enter hi]
    unfold Property.size at *
    omega
  have hentries : (devices.map concDevice).modify i (fun d => addData d p.name p.value) =
      (enter devices i p).map concDevice := by
    apply ext_getElem?
    intro j
    rw [getElem?_modify, getElem?_map, getElem?_map, enter, getElem?_modify]
    cases hj : devices[j]? with
    | none => rfl
    | some d =>
      have hle := size_le_imageSize (mem_of_getElem? hj)
      change some (if i = j then _ else _) = some (concDevice (if i = j then _ else _))
      split
      · rw [addData_concDevice hname (by omega)]
      · rfl
  rw [devpropAddValue]
  dsimp only [concString]
  rw [hlength, hentries, enter, length_modify]

/-- A device is found by its PCI nodes, or added. -/
theorem devpropAddDevicePci_concString (devices : List Device) (path : DevicePath) :
    devpropAddDevicePci (concString devices) path.nodes =
      match devices.findIdx? fun d => d.path.pci = path.pci with
      | some i => (concString devices, some i)
      | none =>
        ({ concString devices with
            length := (imageSize devices + (fresh path).size) % 2 ^ 32
            numentries := (devices.length + 1) % 2 ^ 16
            entries := (devices ++ [fresh path]).map concDevice },
          some devices.length) := by
  have hpci : copyPci maxPciDevPaths (path.pci.map fun node => .pci node.function node.device) =
      path.pci.map concPci := copyPci_map path.pci_le
  have hsize : 24 + 6 * (path.pci.map concPci).length = (fresh path).size := by
    rw [length_map]
    rfl
  have hfind : (concString devices).entries.findIdx? (sameDevice · (concDevice (fresh path))) =
      devices.findIdx? fun d => d.path.pci = path.pci := by
    rw [concString, findIdx?_map]
    congr 1
    funext d
    exact sameDevice_concDevice d _
  have hentries : (concString devices).entries ++ [concDevice (fresh path)] =
      (devices ++ [fresh path]).map concDevice := by
    rw [map_append]
    rfl
  have hcount : (concString devices).entries.length = devices.length := length_map ..
  rw [show path.nodes = .acpi path.acpi.hid path.acpi.uid ::
    path.pci.map fun node => .pci node.function node.device from rfl, devpropAddDevicePci]
  rw [hpci, hsize, if_neg (by simpa using path.pci_ne), ← hentries, ← hfind, hcount]
  rfl

theorem concString_append (hsize : imageSize (devices ++ [d]) < 2 ^ 32)
    (hnum : (devices ++ [d]).length < 2 ^ 16) :
    { concString devices with
        length := (imageSize devices + d.size) % 2 ^ 32
        numentries := (devices.length + 1) % 2 ^ 16
        entries := (devices ++ [d]).map concDevice } = concString (devices ++ [d]) := by
  rw [imageSize_append] at hsize
  rw [length_append, length_singleton] at hnum
  rw [Nat.mod_eq_of_lt hsize, Nat.mod_eq_of_lt hnum, ← imageSize_append]
  dsimp only [concString]
  rw [length_append, length_singleton]

/-- What a registry returns are devices of its list. -/
def Registry.Closed (r : Registry) : Prop := ∀ i ∈ r.returned, i < r.devices.length

section

variable {κ : Type} [DecidableEq κ] (key : Path → κ) (norm : Path → Path)

theorem Registry.step_closed {r : Registry} (h : r.Closed) (call : Call) :
    (r.step key norm call).Closed := by
  unfold Closed step
  cases call with
  | addDevice path =>
    dsimp only
    cases hfind : r.devices.findIdx? fun d => key d.path = key path.toPath with
    | some i =>
      have hi := (findIdx?_eq_some_iff_findIdx_eq.mp hfind).1
      intro j hj
      rcases mem_append.mp hj with hj | hj
      · exact h j hj
      · rw [mem_singleton.mp hj]
        exact hi
    | none =>
      intro j hj
      rw [length_append, length_singleton]
      rcases mem_append.mp hj with hj | hj
      · exact Nat.lt_succ_of_lt (h j hj)
      · rw [mem_singleton.mp hj]
        exact Nat.lt_succ_self _
  | addValue device value =>
    dsimp only
    cases r.returned[device]? with
    | none => exact h
    | some i =>
      intro j hj
      rw [length_modify]
      exact h j hj

theorem Registry.run_closed (calls : List Call) : (Registry.run key norm calls).Closed := by
  induction calls using reverseRecOn with
  | nil => exact nofun
  | append_singleton calls call ih =>
    rw [run_append]
    exact step_closed key norm ih call

end

theorem step_grows {r : Registry} (h : r.Closed) (call : Call) :
    r.devices.length ≤ (r.step Path.pci written call).devices.length ∧
      imageSize r.devices ≤ imageSize (r.step Path.pci written call).devices := by
  unfold Registry.step
  cases call with
  | addDevice path =>
    dsimp only
    cases r.devices.findIdx? fun d => d.path.pci = path.toPath.pci with
    | some i => exact ⟨Nat.le_refl _, Nat.le_refl _⟩
    | none =>
      rw [length_append, imageSize_append]
      exact ⟨Nat.le_add_right _ _, Nat.le_add_right _ _⟩
  | addValue device value =>
    dsimp only
    cases hreturned : r.returned[device]? with
    | none => exact ⟨Nat.le_refl _, Nat.le_refl _⟩
    | some i =>
      have hi := h i (mem_of_getElem? hreturned)
      have hsize := imageSize_enter hi value.toProperty
      unfold enter at hsize
      rw [length_modify, hsize]
      exact ⟨Nat.le_refl _, Nat.le_add_right _ _⟩

/-- The string of a registry. -/
def Registry.conc (r : Registry) : Builder := ⟨concString r.devices, r.returned.map some⟩

/-- A call on the string is that call on the registry. -/
theorem step_conc {r : Registry} (h : r.Closed) {call : Call} (hcall : call.addressed = true)
    (hsize : imageSize (r.step Path.pci written call).devices < 2 ^ 32)
    (hnum : (r.step Path.pci written call).devices.length < 2 ^ 16) :
    r.conc.step call = (r.step Path.pci written call).conc := by
  cases call with
  | addDevice path =>
    unfold Registry.step at hsize hnum ⊢
    unfold Builder.step Registry.conc
    dsimp only at hsize hnum ⊢
    rw [devpropAddDevicePci_concString]
    cases hfind : r.devices.findIdx? fun d => d.path.pci = path.toPath.pci with
    | some i =>
      dsimp only
      rw [map_append]
      rfl
    | none =>
      rw [hfind] at hsize hnum
      have hreturned : (r.returned ++ [r.devices.length]).map some =
          r.returned.map some ++ [some r.devices.length] := map_append ..
      rw [hreturned]
      exact congrArg (Builder.mk · _) (concString_append hsize hnum)
  | addValue device value =>
    unfold Registry.step at hsize ⊢
    unfold Builder.step Registry.conc
    dsimp only at hsize ⊢
    rw [getD_eq_getElem?_getD, getElem?_map]
    cases hreturned : r.returned[device]? with
    | none => rfl
    | some i =>
      have hi := h i (mem_of_getElem? hreturned)
      rw [hreturned] at hsize
      dsimp only at hsize
      have hgrown := imageSize_enter hi value.toProperty
      unfold enter at hgrown
      have hpointer : value.pointer = some value.value :=
        if_neg (by simpa [Call.addressed] using hcall)
      change Builder.mk (devpropAddValue (concString r.devices) (some i) _ _).1 _ = _
      rw [hpointer, concString_enter hi value.short (by omega)]
      rfl

theorem run_filter_addressed (calls : List Call) :
    Builder.run (calls.filter Call.addressed) = Builder.run calls := by
  rw [Builder.run, foldl_filter, Builder.run]
  congr 1
  funext b call
  cases call with
  | addDevice path => rfl
  | addValue device value =>
    cases hnull : value.null with
    | false => simp [Call.addressed, hnull]
    | true => simp [Call.addressed, Builder.step, devpropAddValue, Value.pointer, hnull]

/-- At any time the string is the one of the registry. -/
theorem run_eq_conc (calls : List Call) (hsize : imageSize (merged calls).devices < 2 ^ 32)
    (hnum : (merged calls).devices.length < 2 ^ 16) : Builder.run calls = (merged calls).conc := by
  rw [← run_filter_addressed]
  unfold merged at *
  have hall : ∀ call ∈ calls.filter Call.addressed, call.addressed = true := fun _ h =>
    (mem_filter.mp h).2
  generalize calls.filter Call.addressed = calls at *
  induction calls using reverseRecOn with
  | nil => rfl
  | append_singleton calls call ih =>
    have hclosed := Registry.run_closed Path.pci written calls
    have hgrows := step_grows hclosed call
    rw [Registry.run_append] at hsize hnum ⊢
    rw [Builder.run, foldl_append, ← Builder.run,
      ih (Nat.lt_of_le_of_lt hgrows.2 hsize) (Nat.lt_of_le_of_lt hgrows.1 hnum)
        fun c hc => hall c (mem_append_left _ hc)]
    exact step_conc hclosed (hall call (mem_append_right _ (mem_singleton_self call))) hsize hnum

end Clover.Inject
