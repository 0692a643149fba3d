import Wpm.Operation.Plan
import Wpm.Lib.PrefixCode

/-!
What the plan digest is the hash of.

The texts of an item end with their terminators and its fingerprint and file identity have one
length, so that an item is read back from its bytes. The state digest at the end is shorter than any
item; so the bytes have one reading only, whatever the number of items.
-/

namespace Wpm.Operation

open Wpm.Lib.CString Wpm.Lib.PrefixCode

/-! ### The file identity -/

lemma wordBytes_injective : Function.Injective wordBytes := by
  intro n m h
  simp only [wordBytes, List.cons.injEq, and_true, ← UInt8.toNat_inj, UInt32.toNat_toUInt8,
    UInt32.toNat_shiftRight] at h
  have h8 : (8 : UInt32).toNat % 32 = 8 := rfl
  have h16 : (16 : UInt32).toNat % 32 = 16 := rfl
  have h24 : (24 : UInt32).toNat % 32 = 24 := rfl
  simp only [h8, h16, h24, Nat.shiftRight_eq_div_pow] at h
  have hn := n.toNat_lt
  have hm := m.toNat_lt
  refine UInt32.toNat_inj.1 ?_
  omega

lemma length_fileId_bytes (f : FileId) : f.bytes.length = 12 := rfl

lemma fileId_bytes_injective : Function.Injective FileId.bytes := by
  intro f f' h
  obtain ⟨h, hlow⟩ := List.append_inj h rfl
  obtain ⟨hvolume, hhigh⟩ := List.append_inj h rfl
  rcases f with ⟨volume, indexHigh, indexLow⟩
  rcases f' with ⟨volume', indexHigh', indexLow'⟩
  obtain rfl : volume = volume' := wordBytes_injective hvolume
  obtain rfl : indexHigh = indexHigh' := wordBytes_injective hhigh
  obtain rfl : indexLow = indexLow' := wordBytes_injective hlow
  rfl

/-! ### One item -/

/-- The texts of an item, in the order of `fields` in `wpm_operation_confirm`. -/
def Approved.fields (a : Approved) : List Bytes :=
  [a.action.text, a.archive, a.source, a.oldVersion, a.identity.name, a.identity.arch,
    a.identity.version, a.signingKey, a.recoveryId, a.retained]

/-- The item as it stands in memory: its texts are C strings, its fingerprint is an array of 32
bytes. -/
structure Approved.InMemory (a : Approved) : Prop where
  texts : ∀ field ∈ a.fields, 0 ∉ field
  fingerprint : a.fingerprint.length = 32

/-- What is hashed of an item. -/
def Approved.bytes (a : Approved) : Bytes :=
  (a.fields.flatMap fun field => field ++ [0]) ++ a.fingerprint ++ a.fileIdentity.bytes

lemma planBytes_eq (items : List PlanItem) (state : Bytes) : planBytes items state =
    (items.map fun item => item.toApproved).flatMap Approved.bytes ++ state := by
  rw [planBytes, List.flatMap_map]
  rfl

/-- **An item is read back** from its bytes. -/
lemma separates_bytes : Separates Approved.InMemory Approved.bytes := by
  intro a a' x x' ha ha' h
  simp only [Approved.bytes, List.append_assoc] at h
  obtain ⟨hfields, hrest⟩ := (separates_terminated (0 : UInt8)).flatMap_of_length
    (by rfl : a.fields.length = a'.fields.length) ha.texts ha'.texts h
  obtain ⟨hfingerprint, hrest⟩ := List.append_inj hrest (ha.fingerprint.trans ha'.fingerprint.symm)
  obtain ⟨hid, hx⟩ := List.append_inj hrest rfl
  simp only [Approved.fields, List.cons.injEq, and_true] at hfields
  obtain ⟨haction, harchive, hsource, hold, hname, harch, hversion, hkey, hrecovery, hretained⟩ :=
    hfields
  refine ⟨?_, hx⟩
  rcases a with ⟨action, archive, source, oldVersion, signingKey, ⟨name, version, arch⟩,
    fingerprint, fileIdentity, recoveryId, retained⟩
  rcases a' with ⟨action', archive', source', oldVersion', signingKey', ⟨name', version', arch'⟩,
    fingerprint', fileIdentity', recoveryId', retained'⟩
  obtain rfl := Action.text_injective haction
  obtain rfl := fileId_bytes_injective hid
  subst harchive hsource hold hname harch hversion hkey hrecovery hretained hfingerprint
  rfl

lemma length_bytes {a : Approved} (h : a.InMemory) : 32 < a.bytes.length := by
  rw [Approved.bytes, List.length_append, List.length_append, h.fingerprint, length_fileId_bytes]
  omega

/-! ### The plan -/

/-- **The plan digest commits to the plan**: lists of items that differ in what is approved of an
item, or state digests that differ, give the hash different bytes. -/
theorem planBytes_inj {items items' : List PlanItem} {state state' : Bytes}
    (hitems : ∀ item ∈ items, item.InMemory) (hitems' : ∀ item ∈ items', item.InMemory)
    (hstate : state.length = 32) (hstate' : state'.length = 32) :
    planBytes items state = planBytes items' state' ↔
      (items.map fun item => item.toApproved) = (items'.map fun item => item.toApproved) ∧
        state = state' := by
  rw [planBytes_eq, planBytes_eq]
  constructor
  · refine separates_bytes.flatMap_append (hstate.trans hstate'.symm)
      (fun a ha => hstate ▸ length_bytes ha) ?_ ?_
    · exact List.forall_mem_map.2 hitems
    · exact List.forall_mem_map.2 hitems'
  · rintro ⟨hmap, rfl⟩
    rw [hmap]

/-- The removal of `tool.zip`, with this source. -/
def removalFrom (source : Bytes) : PlanItem := PlanItem.collect
  { action := .remove, archive := str "C:\\tool.zip", source, oldVersion := str "none"
    signingKey := str "unsigned", identity := ⟨str "tool", str "1.0", str "any"⟩
    fingerprint := List.replicate 32 7, fileIdentity := ⟨1, 0, 2⟩, recoveryId := str "a0"
    retained := str "C:\\wpm\\recovery\\a0\\input.zip" }

/-- Two plans of one item whose sources differ. -/
theorem planBytes_inj_sample : planBytes [removalFrom (str "a")] (List.replicate 32 1) ≠
    planBytes [removalFrom (str "b")] (List.replicate 32 1) := by
  have ha : (removalFrom (str "a")).InMemory := ⟨forall_mem_of_all (by decide), rfl⟩
  have hb : (removalFrom (str "b")).InMemory := ⟨forall_mem_of_all (by decide), rfl⟩
  intro h
  have hmap := ((planBytes_inj (by simpa using ha) (by simpa using hb) rfl rfl).1 h).1
  have hsource : str "a" = str "b" := congrArg Approved.source (List.cons.inj hmap).1
  exact absurd hsource (by simp [str_inj])

end Wpm.Operation
