import Clover.Inject.DeviceString

/-!
# What the text tells

The text that is generated is the image of those devices of the string that have a value; the length
and the number of devices it tells count all of them (`generate_concString`). The devices of the
string are told apart by their PCI nodes only, and their ACPI nodes are rewritten.

`devprop_serialises_iff` says when the text is nevertheless the right one: every device has got a
value, and not too many, no value was at `NULL`, and the ACPI nodes are those that are written, the
same for the same PCI nodes.
-/

namespace Clover.Inject

open Clover.Lib Clover.Lib.Reader List

variable {devices : List Device} {count length : Nat} {calls : List Call}

def maxNumDevices : Nat := 64

/-! ## The text of the string -/

theorem hexText_append (as bs : Bytes) : hexText (as ++ bs) = hexText as ++ hexText bs :=
  flatMap_append ..

theorem pciText_concPci (node : PciNode) : pciText (concPci node) = hexText node.bytes := by
  simp only [pciText, concPci, hexText, PciNode.bytes, flatMap_cons, flatMap_nil,
    append_assoc, append_nil]
  rfl

theorem flatMap_pciText (pci : List PciNode) :
    (pci.map concPci).flatMap pciText = hexText (pci.flatMap PciNode.bytes) := by
  induction pci with
  | nil => rfl
  | cons node pci ih =>
    rw [map_cons, flatMap_cons, ih, flatMap_cons, hexText_append, pciText_concPci]

theorem deviceText_concDevice {d : Device} (h : d.size < 2 ^ 32) :
    deviceText (concDevice d) = if d.properties = [] then [] else hexText d.bytes := by
  have hdata : (d.properties.flatMap Property.bytes).take (dataOffset (concDevice d)) =
      d.properties.flatMap Property.bytes := by
    rw [dataOffset_concDevice h, take_of_length_le]
    exact Nat.le_of_eq (length_flatMap_bytes _ _ Property.length_bytes _)
  have hnum : hexDigits 4 (swapBytes16 (d.properties.length % 2 ^ 16)) =
      hexText (leBytes 2 d.properties.length) := by
    rw [hexDigits_swapBytes16 (Nat.mod_lt _ (by decide)), ← leBytes_mod 2 d.properties.length]
  split
  · next hnil =>
    rw [deviceText, concDevice, if_pos hnil]
  · next hne =>
    rw [deviceText, show (concDevice d).data = some (d.properties.flatMap Property.bytes) from
      if_neg hne]
    dsimp only
    rw [hdata]
    dsimp only [concDevice]
    rw [hexDigits_swapBytes32 h, hnum, hexDigits_swapBytes32 d.path.acpi.hid.toNat_lt,
      hexDigits_swapBytes32 d.path.acpi.uid.toNat_lt, flatMap_pciText]
    simp only [Device.bytes, Path.bytes, hexText_append, append_assoc]
    rfl

/-- The devices that have a value. -/
def withValues (devices : List Device) : List Device :=
  devices.filter fun d => !d.properties.isEmpty

/-- The text that is generated for the devices of a registry. -/
theorem generate_concString (hsize : imageSize devices < 2 ^ 32) (hnum : devices.length < 2 ^ 16) :
    devpropGenerateString (concString devices) =
      hexText (imageBytes (imageSize devices) devices.length (withValues devices)) := by
  have hentries : (devices.map concDevice).flatMap deviceText =
      hexText ((withValues devices).flatMap Device.bytes) := by
    have hlt : ∀ d ∈ devices, d.size < 2 ^ 32 := fun d hd =>
      Nat.lt_of_le_of_lt (size_le_imageSize hd) hsize
    clear hsize hnum
    induction devices with
    | nil => rfl
    | cons d devices ih =>
      rw [map_cons, flatMap_cons, deviceText_concDevice (hlt d mem_cons_self),
        ih fun e he => hlt e (mem_cons_of_mem d he)]
      cases hd : d.properties with
      | nil => simp [withValues, hd]
      | cons p ps => simp [withValues, hd, hexText_append]
  have hcount : (concString devices).entries.take (concString devices).numentries =
      devices.map concDevice := take_of_length_le (Nat.le_of_eq (length_map ..))
  rw [devpropGenerateString, hcount, hentries]
  dsimp only [concString]
  rw [hexDigits_swapBytes32 hsize, hexDigits_swapBytes16 hnum]
  rfl

/-! ## Reading the text -/

theorem readImage_imageBytes (hlength : length < 256 ^ 4) (hcount : count < 256 ^ 2) :
    readImage (imageBytes length count devices) =
      (times count readDevice (devices.flatMap Device.bytes)).map fun s =>
        ((length, s.1), s.2) := by
  rw [readImage, imageBytes, (reads_le hlength).bind_eq, (reads_literal _).bind_eq,
    (reads_le hcount).bind_eq, (reads_literal _).bind_eq]
  change (times count readDevice _).bind _ = _
  cases times count readDevice (devices.flatMap Device.bytes) <;> rfl

theorem decode_imageBytes (hlength : length < 256 ^ 4) (hcount : count < 256 ^ 2) :
    decode (hexText (imageBytes length count devices)) =
      match times count readDevice (devices.flatMap Device.bytes) with
      | some (result, []) => some (length, result)
      | _ => none := by
  simp only [decode, unhex_hexText, Option.bind_eq_bind, Option.bind_some,
    readImage_imageBytes hlength hcount]
  cases times count readDevice (devices.flatMap Device.bytes) with
  | none => rfl
  | some s =>
    obtain ⟨result, rest⟩ := s
    cases rest <;> rfl

theorem decode_length {result : Nat × List Device} (hlength : length < 256 ^ 4)
    (hcount : count < 256 ^ 2)
    (h : decode (hexText (imageBytes length count devices)) = some result) : result.1 = length := by
  rw [decode_imageBytes hlength hcount] at h
  split at h
  · exact congrArg Prod.fst (Option.some.inj h).symm
  · cases h

theorem decode_image_eq_none (hlength : length < 256 ^ 4) (hcount : devices.length < 256 ^ 2)
    (hfits : ∀ d ∈ devices, d.Fits) (hproperties : ∃ d ∈ devices, 256 ^ 2 ≤ d.properties.length) :
    decode (hexText (imageBytes length devices.length devices)) = none := by
  have hdevices : times devices.length readDevice (devices.flatMap Device.bytes) = none := by
    rw [← append_nil (devices.flatMap Device.bytes)]
    refine times_eq_none Device.bytes id (fun d hd => ?_) ?_ []
    · rcases Nat.lt_or_ge d.properties.length (256 ^ 2) with h | h
      · exact Or.inl (reads_device (hfits d hd) h)
      · exact Or.inr (readDevice_eq_none (hfits d hd) h)
    · obtain ⟨d, hd, h⟩ := hproperties
      exact ⟨d, hd, readDevice_eq_none (hfits d hd) h⟩
  rw [decode_imageBytes hlength hcount, hdevices]

/-! ## The paths of a registry -/

/-- The paths of the devices that were added, in the order of the calls. -/
def addedPaths (calls : List Call) : List DevicePath :=
  calls.filterMap fun
    | .addDevice path => some path
    | .addValue _ _ => none

theorem addedPaths_addDevice (calls : List Call) (path : DevicePath) :
    addedPaths (calls ++ [.addDevice path]) = addedPaths calls ++ [path] :=
  filterMap_append ..

theorem addedPaths_addValue (calls : List Call) (device : Nat) (value : Value) :
    addedPaths (calls ++ [.addValue device value]) = addedPaths calls := by
  rw [addedPaths, filterMap_append]
  exact append_nil _

theorem addedPaths_filter (calls : List Call) :
    addedPaths (calls.filter Call.addressed) = addedPaths calls := by
  rw [addedPaths, filterMap_filter]
  congr 1
  funext call
  cases call with
  | addDevice path => rfl
  | addValue device value => exact ite_self _

/-- The values that were added for one of the devices returned by then, `n` before the calls. -/
def addedValues : Nat → List Call → List Value
  | _, [] => []
  | n, .addDevice _ :: calls => addedValues (n + 1) calls
  | n, .addValue device value :: calls =>
    if device < n then value :: addedValues n calls else addedValues n calls

theorem addedValues_filter (n : Nat) (calls : List Call) :
    addedValues n (calls.filter Call.addressed) = (addedValues n calls).filter fun v =>
      !v.null := by
  induction calls generalizing n with
  | nil => rfl
  | cons call calls ih =>
    cases call with
    | addDevice path => exact ih (n + 1)
    | addValue device value =>
      cases hnull : value.null <;> by_cases hlt : device < n <;>
        simp [Call.addressed, addedValues, hnull, hlt, ih]

/-- The number of properties of all devices. -/
def total (devices : List Device) : Nat := (devices.map fun d => d.properties.length).sum

namespace Registry

variable {κ : Type} [DecidableEq κ] (key : Path → κ) (norm : Path → Path)

/-- One call: the number of devices returned, and of properties. -/
theorem step_counts {r : Registry} (h : r.Closed) (call : Call) (calls : List Call) :
    total (r.step key norm call).devices +
        (addedValues (r.step key norm call).returned.length calls).length =
      total r.devices + (addedValues r.returned.length (call :: calls)).length := by
  unfold step
  cases call with
  | addDevice path =>
    dsimp only
    split <;> simp [addedValues, total]
  | addValue device value =>
    dsimp only [addedValues]
    cases hreturned : r.returned[device]? with
    | none => rw [if_neg (Nat.not_lt.mpr (getElem?_eq_none_iff.mp hreturned))]
    | some i =>
      have hsum := sum_map_modify (fun d => d.properties.length)
        (f := fun d => ⟨d.path, d.properties ++ [value.toProperty]⟩) (fun _ => length_append ..)
        (h i (mem_of_getElem? hreturned))
      rw [if_pos (List.getElem?_eq_some_iff.mp hreturned).1, length_cons, total, hsum, total]
      exact Nat.add_right_comm _ _ _

theorem foldl_total (calls : List Call) {r : Registry} (h : r.Closed) :
    total (calls.foldl (step key norm) r).devices =
      total r.devices + (addedValues r.returned.length calls).length := by
  induction calls generalizing r with
  | nil => rfl
  | cons call calls ih =>
    rw [foldl_cons, ih (step_closed key norm h call)]
    exact step_counts key norm h call calls

/-- If no value at `NULL` is for a device that was returned, the calls with one change nothing. -/
theorem foldl_filter_addressed (calls : List Call) (r : Registry)
    (h : ∀ v ∈ addedValues r.returned.length calls, v.null = false) :
    (calls.filter Call.addressed).foldl (step key norm) r = calls.foldl (step key norm) r := by
  induction calls generalizing r with
  | nil => rfl
  | cons call calls ih =>
    cases call with
    | addDevice path =>
      refine ih (step key norm r (.addDevice path)) ?_
      have hlength : (step key norm r (.addDevice path)).returned.length =
          r.returned.length + 1 := by
        unfold step
        dsimp only
        split <;> simp
      rwa [hlength]
    | addValue device value =>
      have hlength : (step key norm r (.addValue device value)).returned.length =
          r.returned.length := by
        unfold step
        dsimp only
        split <;> rfl
      unfold addedValues at h
      split at h
      · have hnull := h value mem_cons_self
        rw [filter_cons_of_pos (by simp [Call.addressed, hnull])]
        refine ih _ fun v hv => h v (mem_cons_of_mem _ ?_)
        rwa [hlength] at hv
      · next hlt =>
        have hstep : step key norm r (.addValue device value) = r := by
          simp [step, getElem?_eq_none (Nat.le_of_not_lt hlt)]
        rw [foldl_cons, hstep, ← ih r h, filter_cons]
        split
        · rw [foldl_cons, hstep]
        · rfl

def paths (r : Registry) : List Path := r.devices.map Device.path

theorem paths_addDevice (r : Registry) (path : DevicePath) :
    (r.step key norm (.addDevice path)).paths =
      if key path.toPath ∈ r.paths.map key then r.paths else r.paths ++ [norm path.toPath] := by
  have hmem : key path.toPath ∈ r.paths.map key ↔
      ∃ d ∈ r.devices, key d.path = key path.toPath := by
    simp [paths]
  unfold step
  dsimp only
  cases hfind : r.devices.findIdx? fun d => key d.path = key path.toPath with
  | some i =>
    obtain ⟨hi, hkey, -⟩ := findIdx?_eq_some_iff_getElem.mp hfind
    rw [if_pos (hmem.mpr ⟨_, getElem_mem hi, of_decide_eq_true hkey⟩)]
    rfl
  | none =>
    rw [if_neg]
    · exact map_append ..
    · intro h
      obtain ⟨d, hd, hkey⟩ := hmem.mp h
      exact of_decide_eq_false (findIdx?_eq_none_iff.mp hfind d hd) hkey

theorem paths_addValue (r : Registry) (device : Nat) (value : Value) :
    (r.step key norm (.addValue device value)).paths = r.paths := by
  unfold step paths
  dsimp only
  cases r.returned[device]? with
  | none => rfl
  | some i =>
    apply ext_getElem?
    intro j
    rw [getElem?_map, getElem?_modify, getElem?_map]
    cases r.devices[j]? with
    | none => rfl
    | some d =>
      split <;> rfl

theorem run_paths {Q : Path → Prop} (h : ∀ p ∈ addedPaths calls, Q (norm p.toPath)) :
    ∀ p ∈ (run key norm calls).paths, Q p := by
  induction calls using reverseRecOn with
  | nil => exact nofun
  | append_singleton calls call ih =>
    rw [run_append]
    cases call with
    | addDevice path =>
      rw [addedPaths_addDevice] at h
      have hpaths := ih fun p hp => h p (mem_append_left _ hp)
      rw [paths_addDevice]
      split
      · exact hpaths
      · intro p hp
        rcases mem_append.mp hp with hp | hp
        · exact hpaths p hp
        · rw [mem_singleton.mp hp]
          exact h path (mem_append_right _ (mem_singleton_self path))
    | addValue device value =>
      rw [addedPaths_addValue] at h
      rw [paths_addValue]
      exact ih h

/-- Every device that was added has an entry, and no two have one key. -/
theorem run_keys (hnorm : ∀ p, key (norm p) = key p) (calls : List Call) :
    (∀ p ∈ addedPaths calls, key p.toPath ∈ (run key norm calls).paths.map key) ∧
      ((run key norm calls).paths.map key).Nodup := by
  induction calls using reverseRecOn with
  | nil => exact ⟨fun p hp => (nomatch hp), nodup_nil⟩
  | append_singleton calls call ih =>
    obtain ⟨hmem, hnodup⟩ := ih
    rw [run_append]
    cases call with
    | addDevice path =>
      rw [addedPaths_addDevice, paths_addDevice]
      split
      · next hfound =>
        refine ⟨fun p hp => ?_, hnodup⟩
        rcases mem_append.mp hp with hp | hp
        · exact hmem p hp
        · rwa [mem_singleton.mp hp]
      · next hfound =>
        rw [map_append, map_singleton, hnorm]
        refine ⟨fun p hp => ?_, ?_⟩
        · rcases mem_append.mp hp with hp | hp
          · exact mem_append_left _ (hmem p hp)
          · rw [mem_singleton.mp hp]
            exact mem_append_right _ (mem_singleton_self _)
        · rw [nodup_append]
          refine ⟨hnodup, pairwise_singleton _ _, fun a ha b hb hab => hfound ?_⟩
          rwa [← mem_singleton.mp hb, ← hab]
    | addValue device value =>
      rw [addedPaths_addValue, paths_addValue]
      exact ⟨hmem, hnodup⟩

theorem findIdx?_congr {α : Type} {p q : α → Bool} {as : List α} (h : ∀ a ∈ as, p a = q a) :
    as.findIdx? p = as.findIdx? q := by
  induction as with
  | nil => rfl
  | cons a as ih =>
    rw [findIdx?_cons, findIdx?_cons, h a mem_cons_self,
      ih fun b hb => h b (mem_cons_of_mem a hb)]

/-- Two registries that enter the same paths and tell them apart in the same way are the same. -/
theorem run_eq_run (hnorm : ∀ p ∈ addedPaths calls, norm p.toPath = p.toPath)
    (hkey : ∀ p ∈ addedPaths calls, ∀ q ∈ addedPaths calls, key p.toPath = key q.toPath →
      p.toPath = q.toPath) :
    run key norm calls = run id id calls := by
  induction calls using reverseRecOn with
  | nil => rfl
  | append_singleton calls call ih =>
    rw [run_append, run_append]
    cases call with
    | addDevice path =>
      rw [addedPaths_addDevice] at hnorm hkey
      have hpath := mem_append_right (addedPaths calls) (mem_singleton_self path)
      rw [ih (fun p hp => hnorm p (mem_append_left _ hp)) fun p hp q hq =>
        hkey p (mem_append_left _ hp) q (mem_append_left _ hq)]
      have hadded : ∀ q ∈ (run id id calls).paths, ∃ p ∈ addedPaths calls, q = p.toPath :=
        run_paths id id fun p hp => ⟨p, hp, rfl⟩
      have hfind : ((run id id calls).devices.findIdx? fun d => key d.path = key path.toPath) =
          (run id id calls).devices.findIdx? fun d => id d.path = id path.toPath := by
        apply findIdx?_congr
        intro d hd
        obtain ⟨p, hp, hdp⟩ := hadded d.path (mem_map_of_mem hd)
        rw [hdp, decide_eq_decide]
        exact ⟨hkey p (mem_append_left _ hp) path hpath, congrArg key⟩
      unfold step
      dsimp only
      rw [hfind, hnorm path hpath]
      rfl
    | addValue device value =>
      rw [addedPaths_addValue] at hnorm hkey
      rw [ih hnorm hkey]
      rfl

end Registry

/-! ## The result -/

/-- The devices as they were added, each under its own path. -/
def intended (calls : List Call) : Registry := Registry.run id id calls

theorem written_eq_iff (path : Path) : written path = path ↔
    path.acpi.hid = 0x0a0341d0 ∧ (path.acpi.uid = 0 ∨ path.acpi.uid = 0x80) := by
  obtain ⟨⟨hid, uid⟩, pci⟩ := path
  simp only [written, Path.mk.injEq, AcpiNode.mk.injEq, and_true]
  refine and_congr eq_comm ?_
  by_cases huid : uid = 0
  · simp [huid]
  · rw [if_pos huid]
    constructor
    · exact fun h => Or.inr h.symm
    · exact fun h => (h.resolve_left huid).symm

/-- The devices of the string are the intended ones if and only if no value was at `NULL`, and the
ACPI nodes are those that are written, and the same for the same PCI nodes. -/
theorem merged_eq_intended_iff (calls : List Call) :
    (merged calls).devices = (intended calls).devices ↔
      (∀ v ∈ addedValues 0 calls, v.null = false) ∧
      (∀ p ∈ addedPaths calls,
        p.acpi.hid = 0x0a0341d0 ∧ (p.acpi.uid = 0 ∨ p.acpi.uid = 0x80)) ∧
      ∀ p ∈ addedPaths calls, ∀ q ∈ addedPaths calls, p.pci = q.pci → p.acpi = q.acpi := by
  have hfilter : ∀ {Q : DevicePath → Prop}, (∀ p ∈ addedPaths (calls.filter Call.addressed), Q p) ↔
      ∀ p ∈ addedPaths calls, Q p := by
    rw [addedPaths_filter]
  constructor
  · intro heq
    have hpaths : (merged calls).paths = (intended calls).paths :=
      congrArg (map Device.path) heq
    have hempty : Registry.Closed ⟨[], []⟩ := nofun
    have htotal := congrArg total heq
    rw [merged, intended, Registry.run, Registry.run, Registry.foldl_total _ _ _ hempty,
      Registry.foldl_total _ _ _ hempty] at htotal
    have hvalues := Nat.add_left_cancel htotal
    rw [length_nil, addedValues_filter, length_filter_eq_length_iff] at hvalues
    have hadded : ∀ p ∈ addedPaths calls, p.toPath ∈ (merged calls).paths := by
      intro p hp
      have hmem := (Registry.run_keys id id (fun _ => rfl) calls).1 p hp
      rw [map_id] at hmem
      rw [hpaths]
      exact hmem
    refine ⟨fun v hv => by simpa using hvalues v hv, fun p hp => ?_, fun p hp q hq hpci => ?_⟩
    · rw [← written_eq_iff p.toPath]
      have hwritten : ∀ p ∈ (merged calls).paths, written p = p :=
        Registry.run_paths Path.pci written fun p _ => (written_eq_iff _).mpr
          ⟨rfl, by
            unfold written
            split
            · exact Or.inr rfl
            · exact Or.inl rfl⟩
      exact hwritten _ (hadded p hp)
    · have hnodup :=
        (Registry.run_keys Path.pci written (fun _ => rfl) (calls.filter Call.addressed)).2
      have hpath : p.toPath = q.toPath :=
        inj_on_of_nodup_map hnodup (hadded p hp) (hadded q hq) hpci
      rw [hpath]
  · rintro ⟨hvalues, hwritten, hsame⟩
    have hrun : merged calls = Registry.run id id (calls.filter Call.addressed) := by
      apply Registry.run_eq_run
      · exact hfilter.mpr fun p hp => (written_eq_iff _).mpr (hwritten p hp)
      · exact hfilter.mpr fun p hp => hfilter.mpr fun q hq hpci =>
          Path.ext (hsame p hp q hq hpci) hpci
    rw [hrun, intended, Registry.run, Registry.foldl_filter_addressed id id calls ⟨[], []⟩ hvalues]
    rfl

theorem imageSize_withValues (devices : List Device) :
    imageSize (withValues devices) ≤ imageSize devices ∧
      (imageSize (withValues devices) = imageSize devices → withValues devices = devices) := by
  induction devices with
  | nil => exact ⟨Nat.le_refl _, fun _ => rfl⟩
  | cons d devices ih =>
    obtain ⟨hle, hself⟩ := ih
    have hsize : ∀ ds : List Device, imageSize (d :: ds) = imageSize ds + d.size := by
      intro ds
      rw [imageSize, imageSize, map_cons, sum_cons]
      omega
    have hpos : 0 < d.size := by
      unfold Device.size
      omega
    by_cases hd : d.properties = []
    · have hout : withValues (d :: devices) = withValues devices := by simp [withValues, hd]
      rw [hout, hsize]
      exact ⟨by omega, fun h => by omega⟩
    · have hin : withValues (d :: devices) = d :: withValues devices := by simp [withValues, hd]
      rw [hin, hsize, hsize]
      exact ⟨by omega, fun h => by rw [hself (by omega)]⟩

theorem property_fits_of_size {d : Device} (h : d.size < 2 ^ 32) {p : Property}
    (hp : p ∈ d.properties) : p.Fits := by
  have hle := le_sum_map Property.size hp
  have hp : p.size = 2 * p.name.length + p.value.length + 10 := rfl
  unfold Device.size at h
  constructor <;> omega

theorem merged_fits (h : imageSize (merged calls).devices < 2 ^ 32) :
    ∀ d ∈ (merged calls).devices, d.Fits := by
  intro d hd
  have hpci : ∀ p ∈ (merged calls).paths, p.pci.length ≤ maxPciDevPaths :=
    Registry.run_paths Path.pci written fun p _ => p.pci_le
  have hsize := Nat.lt_of_le_of_lt (size_le_imageSize hd) h
  exact ⟨hpci d.path (mem_map_of_mem hd), hsize, fun p hp => property_fits_of_size hsize hp⟩

/-- The text tells its own length and decodes to the intended devices if and only if every one of
them has got a value, and fewer than 65536, no value was at `NULL`, and the ACPI nodes are those
that are written, the same for the same PCI nodes. -/
theorem devprop_serialises_iff (calls : List Call)
    (hdevices : (merged calls).devices.length < maxNumDevices)
    (hsize : imageSize (merged calls).devices < 2 ^ 32) :
    let text := devpropGenerateString (Builder.run calls).string
    (∃ length, decode text = some (length, (intended calls).devices) ∧
        text.length = 2 * length) ↔
      (∀ d ∈ (intended calls).devices, d.properties ≠ [] ∧ d.properties.length < 2 ^ 16) ∧
      (∀ v ∈ addedValues 0 calls, v.null = false) ∧
      (∀ p ∈ addedPaths calls,
        p.acpi.hid = 0x0a0341d0 ∧ (p.acpi.uid = 0 ∨ p.acpi.uid = 0x80)) ∧
      ∀ p ∈ addedPaths calls, ∀ q ∈ addedPaths calls, p.pci = q.pci → p.acpi = q.acpi := by
  have hnum : (merged calls).devices.length < 2 ^ 16 := Nat.lt_trans hdevices (by decide)
  have hfits := merged_fits hsize
  have htext : devpropGenerateString (Builder.run calls).string =
      hexText (imageBytes (imageSize (merged calls).devices) (merged calls).devices.length
        (withValues (merged calls).devices)) := by
    rw [run_eq_conc calls hsize hnum]
    exact generate_concString hsize hnum
  rw [htext, ← merged_eq_intended_iff]
  generalize (merged calls).devices = devices at *
  intro text
  have hlength : text.length = 2 * imageSize (withValues devices) := by
    rw [length_hexText, length_imageBytes]
  obtain ⟨-, hself⟩ := imageSize_withValues devices
  constructor
  · rintro ⟨length, hdecode, heq⟩
    have htold : length = imageSize devices := decode_length hsize hnum hdecode
    have hall : withValues devices = devices := hself (by omega)
    have hvalues : ∀ d ∈ devices, d.properties ≠ [] := by
      intro d hd hnil
      have hkept := filter_eq_self.mp hall d hd
      rw [hnil] at hkept
      cases hkept
    have hcount : ∀ d ∈ devices, d.properties.length < 2 ^ 16 := by
      by_contra hmany
      push Not at hmany
      obtain ⟨d, hd, hd'⟩ := hmany
      simp only [text, hall] at hdecode
      rw [decode_image_eq_none hsize hnum hfits ⟨d, hd, hd'⟩] at hdecode
      cases hdecode
    simp only [text, hall] at hdecode
    rw [decode_image hsize hnum hfits hcount] at hdecode
    obtain ⟨-, hdevices⟩ := Prod.mk.inj (Option.some.inj hdecode)
    rw [← hdevices]
    exact ⟨fun d hd => ⟨hvalues d hd, hcount d hd⟩, rfl⟩
  · rintro ⟨hvalues, heq⟩
    rw [← heq] at hvalues ⊢
    have hall : withValues devices = devices := by
      apply filter_eq_self.mpr
      intro d hd
      simp [(hvalues d hd).1]
    refine ⟨imageSize devices, ?_, by rw [hlength, hall]⟩
    simp only [text, hall]
    exact decode_image hsize hnum hfits fun d hd => (hvalues d hd).2

/-- A path with one PCI node, and a value with the name `a`. -/
def samplePath (device : UInt8) : DevicePath :=
  { acpi := ⟨0x0a0341d0, 0⟩
    pci := [⟨0, device⟩]
    pci_ne := cons_ne_nil _ _
    pci_le := Nat.le_add_left 1 15 }

def sampleValue : Value :=
  { name := [97]
    value := [1, 2]
    ascii := by decide +kernel
    short := by decide
    null := false
    null_empty := nofun }

/-- The theorem for two devices with a value each. -/
theorem devprop_serialises_iff_sample :
    ∃ length, decode (devpropGenerateString (Builder.run [.addDevice (samplePath 1),
        .addDevice (samplePath 2), .addValue 1 sampleValue, .addValue 0 sampleValue]).string) =
      some (length, [⟨(samplePath 1).toPath, [⟨[97], [1, 2]⟩]⟩,
        ⟨(samplePath 2).toPath, [⟨[97], [1, 2]⟩]⟩]) := by
  have hiff := devprop_serialises_iff [.addDevice (samplePath 1), .addDevice (samplePath 2),
    .addValue 1 sampleValue, .addValue 0 sampleValue] (by decide) (by decide)
  obtain ⟨length, hdecode, -⟩ := hiff.mpr (by decide)
  exact ⟨length, hdecode⟩

/-- A device without values is counted, in the length (86 bytes) and in the number of devices, but
there is no record of it: the text has 56 bytes. -/
theorem devprop_counts_missing_record :
    let text := devpropGenerateString (Builder.run [.addDevice (samplePath 1),
      .addDevice (samplePath 2), .addValue 0 sampleValue]).string
    text.length = 112 ∧ text.take 24 = "560000000100000002000000".toList ∧ decode text = none := by
  decide +kernel

/-! ## The devices that are returned -/

/-- The registry after calls that add devices only. -/
def entered (paths : List DevicePath) : Registry :=
  Registry.run Path.pci written (paths.map .addDevice)

theorem merged_addDevice (paths : List DevicePath) :
    merged (paths.map .addDevice) = entered paths := by
  rw [merged, filter_eq_self.mpr]
  · rfl
  · intro call hcall
    obtain ⟨path, -, rfl⟩ := mem_map.mp hcall
    rfl

theorem entered_append (paths : List DevicePath) (path : DevicePath) :
    entered (paths ++ [path]) =
      match (entered paths).devices.findIdx? fun d => d.path.pci = path.pci with
      | some i => { entered paths with returned := (entered paths).returned ++ [i] }
      | none => ⟨(entered paths).devices ++ [fresh path],
          (entered paths).returned ++ [(entered paths).devices.length]⟩ := by
  rw [entered, map_append]
  exact Registry.run_append Path.pci written _ _

/-- The PCI nodes of the device at `i`. -/
def pciAt (devices : List Device) (i : Nat) : Option (List PciNode) :=
  devices[i]?.map fun d => d.path.pci

theorem entered_spec (paths : List DevicePath) :
    (entered paths).returned.map (pciAt (entered paths).devices) = paths.map (fun p => some p.pci) ∧
      (entered paths).devices.length ≤ paths.length ∧
      imageSize (entered paths).devices ≤ 12 + 120 * paths.length := by
  induction paths using reverseRecOn with
  | nil => exact ⟨rfl, Nat.le_refl 0, Nat.le_refl 12⟩
  | append_singleton paths path ih =>
    obtain ⟨hpci, hlength, hsize⟩ := ih
    have hclosed : (entered paths).Closed := Registry.run_closed Path.pci written _
    rw [entered_append, length_append, length_singleton]
    cases hfind : (entered paths).devices.findIdx? fun d => d.path.pci = path.pci with
    | some i =>
      obtain ⟨hi, hkey, -⟩ := findIdx?_eq_some_iff_getElem.mp hfind
      have hat : pciAt (entered paths).devices i = some path.pci := by
        simpa [pciAt, hi] using hkey
      refine ⟨?_, by dsimp only; omega, by dsimp only; omega⟩
      simp [hpci, hat]
    | none =>
      have hkeep : ∀ i ∈ (entered paths).returned,
          pciAt ((entered paths).devices ++ [fresh path]) i = pciAt (entered paths).devices i := by
        intro i hi
        rw [pciAt, getElem?_append_left (hclosed i hi), pciAt]
      have hnew : (fresh path).size ≤ 120 := by
        have hle : path.pci.length ≤ 16 := path.pci_le
        show 24 + 6 * path.pci.length + 0 ≤ 120
        omega
      refine ⟨?_, by simpa using hlength, by rw [imageSize_append]; omega⟩
      rw [map_append, map_congr_left hkeep, hpci]
      simp [pciAt, fresh, written]

/-- Two calls return the same device if and only if the PCI nodes of their paths are the same. -/
theorem entered_eq_iff {paths : List DevicePath} {i j : Nat} {p q : DevicePath}
    (hp : paths[i]? = some p) (hq : paths[j]? = some q) :
    (entered paths).returned[i]? = (entered paths).returned[j]? ↔ p.pci = q.pci := by
  have hat : ∀ {k : Nat} {p : DevicePath}, paths[k]? = some p →
      ∃ a, (entered paths).returned[k]? = some a ∧
        pciAt (entered paths).devices a = some p.pci := by
    intro k p hp
    have hmap := congrArg (fun l => l[k]?) (entered_spec paths).1
    simpa [hp] using hmap
  obtain ⟨a, ha, hpa⟩ := hat hp
  obtain ⟨b, hb, hqb⟩ := hat hq
  rw [ha, hb, Option.some_inj]
  constructor
  · rintro rfl
    exact Option.some.inj (hpa.symm.trans hqb)
  · intro hpci
    have hnodup := (Registry.run_keys Path.pci written (fun _ => rfl) (paths.map .addDevice)).2
    have hget : ∀ k, ((entered paths).paths.map Path.pci)[k]? =
        pciAt (entered paths).devices k := by
      simp [Registry.paths, pciAt, Function.comp_def]
    have hlt := (List.getElem?_eq_some_iff.mp ((hget a).trans hpa)).1
    refine (getElem?_inj hlt hnodup).mp ?_
    exact (hget a).trans (hpa.trans ((congrArg some hpci).trans (hqb.symm.trans (hget b).symm)))

theorem written_bytes_eq_iff (p q : DevicePath) :
    (written p.toPath).bytes = (written q.toPath).bytes ↔
      p.pci = q.pci ∧ (p.acpi.uid = 0 ↔ q.acpi.uid = 0) := by
  constructor
  · intro h
    have hread := @reads_path (written p.toPath) p.pci_le []
    rw [h, @reads_path (written q.toPath) q.pci_le [], Option.some_inj, Prod.mk.injEq] at hread
    simp only [written, Path.mk.injEq, AcpiNode.mk.injEq, true_and] at hread
    refine ⟨hread.1.2.symm, ?_⟩
    by_cases hp : p.acpi.uid = 0 <;> by_cases hq : q.acpi.uid = 0 <;> simp_all
  · rintro ⟨hpci, huid⟩
    simp only [written, hpci, huid, ne_eq]

/-- Two calls return the same device exactly for the same serialised path, if and only if paths with
the same PCI nodes do not differ in whether the UID of the ACPI node is zero. -/
theorem returned_eq_iff (paths : List DevicePath) (hcount : paths.length ≤ maxNumDevices) :
    (∀ (i j : Nat) (p q : DevicePath), paths[i]? = some p → paths[j]? = some q →
      ((Builder.run (paths.map .addDevice)).returned[i]? =
          (Builder.run (paths.map .addDevice)).returned[j]? ↔
        (written p.toPath).bytes = (written q.toPath).bytes)) ↔
    ∀ p ∈ paths, ∀ q ∈ paths, p.pci = q.pci → (p.acpi.uid = 0 ↔ q.acpi.uid = 0) := by
  obtain ⟨-, hlength, hsize⟩ := entered_spec paths
  unfold maxNumDevices at hcount
  rw [← merged_addDevice] at hlength hsize
  have hrun : Builder.run (paths.map .addDevice) = (entered paths).conc := by
    rw [run_eq_conc _ (Nat.lt_of_le_of_lt hsize (by omega)) (Nat.lt_of_le_of_lt hlength (by omega)),
      merged_addDevice]
  have hreturned : ∀ (i j : Nat), (Builder.run (paths.map .addDevice)).returned[i]? =
      (Builder.run (paths.map .addDevice)).returned[j]? ↔
        (entered paths).returned[i]? = (entered paths).returned[j]? := by
    intro i j
    rw [hrun, Registry.conc, getElem?_map, getElem?_map]
    exact (Option.map_injective fun _ _ => Option.some.inj).eq_iff
  simp only [hreturned, written_bytes_eq_iff]
  constructor
  · intro hall p hp q hq hpci
    obtain ⟨i, hi⟩ := mem_iff_getElem?.mp hp
    obtain ⟨j, hj⟩ := mem_iff_getElem?.mp hq
    exact ((hall i j p q hi hj).mp ((entered_eq_iff hi hj).mpr hpci)).2
  · intro hall i j p q hi hj
    rw [entered_eq_iff hi hj, iff_self_and]
    exact hall p (mem_of_getElem? hi) q (mem_of_getElem? hj)

/-- The theorem for two devices behind one root. -/
theorem returned_eq_iff_sample :
    (Builder.run [.addDevice (samplePath 1), .addDevice (samplePath 2)]).returned[0]? ≠
      (Builder.run [.addDevice (samplePath 1), .addDevice (samplePath 2)]).returned[1]? := by
  have hall := (returned_eq_iff [samplePath 1, samplePath 2] (by decide)).mpr (by decide)
  exact (hall 0 1 _ _ rfl rfl).not.mpr (by decide +kernel)

/-- The same PCI node behind the roots 0 and 1: one device for two paths. -/
theorem roots_confused :
    (Builder.run [.addDevice (samplePath 1),
      .addDevice { samplePath 1 with acpi := ⟨0x0a0341d0, 1⟩ }]).returned = [some 0, some 0] ∧
    (written (samplePath 1).toPath).bytes ≠
      (written { (samplePath 1).toPath with acpi := ⟨0x0a0341d0, 1⟩ }).bytes := by
  decide +kernel

end Clover.Inject
