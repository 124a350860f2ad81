import Mathlib.Data.List.Basic
import Pthabt.Lib.CString
import Pthabt.Nvme.Address

/-! `nvme_init` (`nvme.cc`): it walks `DRIVE_IDS`, copies twelve bytes of each address into a buffer
of thirteen, and stops after `ND` drives. The last byte of the buffer is never written, and nothing
checks at the end how many drives there were. -/

namespace Pthabt.Nvme

open Lib

/-- `'_'`. -/
def underscore : UInt8 := 95

/-- A drive address of `DRIVE_IDS`. -/
structure DriveId extends CString where
  length_eq : bytes.length = 12
  underscore_free : underscore ∉ bytes

/-- Addresses joined with underscores, each with as many as given and one more before it. -/
def driveIds : DriveId → List (ℕ × DriveId) → List UInt8
  | a, [] => a.bytes
  | a, (m, b) :: l => a.bytes ++ (List.replicate (m + 1) underscore ++ driveIds b l)

/-- The addresses of the list. -/
def addresses (a : DriveId) (l : List (ℕ × DriveId)) : List DriveId := a :: l.map Prod.snd

/-- How `nvme_init` ends: it returns, with the arguments of its calls of `__nvme_init`, or it calls
`exit`, or it reads behind the string. -/
inductive InitEnd where
  | returned (calls : List (ℕ × List UInt8))
  | exited
  | overread
  deriving DecidableEq

/-- A call of `__nvme_init` before the others. -/
def InitEnd.cons (call : ℕ × List UInt8) : InitEnd → InitEnd
  | .returned calls => .returned (call :: calls)
  | .exited => .exited
  | .overread => .overread

/-- The two loops that skip an address and what separates it from the next one. -/
def skipId (s : List UInt8) : List UInt8 := (s.dropWhile (· ≠ underscore)).dropWhile (· = underscore)

theorem length_skipId_lt {s : List UInt8} (h : s ≠ []) : (skipId s).length < s.length := by
  cases s with
  | nil => exact absurd rfl h
  | cons b s =>
    rw [skipId, List.length_cons, Nat.lt_succ_iff]
    by_cases hb : b = underscore
    · rw [List.dropWhile_cons_of_neg (by simpa using hb), List.dropWhile_cons_of_pos (by simpa using hb)]
      exact (List.dropWhile_sublist _).length_le
    · rw [List.dropWhile_cons_of_pos (by simpa using hb)]
      exact ((List.dropWhile_sublist _).trans (List.dropWhile_sublist _)).length_le

/-- The loop of `nvme_init` where `s` is left of the string and `j` drives were found. `fresh j` is
what the last byte of the buffer holds for drive `j`, and `opens` tells whether its directory is
there. -/
def nvmeInitFrom (opens : ℕ → Bool) (nd : ℕ) (fresh : ℕ → UInt8) (s : List UInt8) (j : ℕ) : InitEnd :=
  if s = [] then .returned []
  else if s.length + 1 < 12 then .overread
  else if opens j = false then .exited
  else .cons (j, (s ++ [0]).take 12 ++ [fresh j])
    (if j + 1 = nd then .returned [] else nvmeInitFrom opens nd fresh (skipId s) (j + 1))
termination_by s.length
decreasing_by exact length_skipId_lt ‹_›

/-- `__nvme_init` was called once for each drive up to `ND`, in order and with its address as a
string; and every drive that a request can select was initialised. -/
structure DrivesReady (nd : ℕ) (ids : List DriveId) (calls : List (ℕ × List UInt8)) : Prop where
  made : calls = (ids.take nd).mapIdx fun j a => (j, a.bytes ++ [0])
  selected : ∀ lba, ∃ call ∈ calls, call.1 = reqDid nd lba

section Parse

variable {opens : ℕ → Bool} {nd j : ℕ} {fresh : ℕ → UInt8} {a : DriveId} {l : List (ℕ × DriveId)}

theorem driveIds_starts (a : DriveId) (l : List (ℕ × DriveId)) :
    ∃ rest, driveIds a l = a.bytes ++ rest := by
  cases l with
  | nil => exact ⟨[], (List.append_nil _).symm⟩
  | cons p l => exact ⟨_, rfl⟩

theorem skip_address (a : DriveId) (rest : List UInt8) :
    (a.bytes ++ rest).dropWhile (· ≠ underscore) = rest.dropWhile (· ≠ underscore) := by
  apply List.dropWhile_append_of_pos
  intro b hb
  have hne : b ≠ underscore := fun h => a.underscore_free (h ▸ hb)
  simpa using hne

theorem skipId_last (a : DriveId) : skipId (driveIds a []) = [] := by
  have h := skip_address a []
  rw [List.append_nil] at h
  rw [skipId, driveIds, h]
  rfl

/-- An address starts with another byte than an underscore. -/
theorem dropWhile_driveIds (a : DriveId) (l : List (ℕ × DriveId)) :
    (driveIds a l).dropWhile (· = underscore) = driveIds a l := by
  obtain ⟨rest, hrest⟩ := driveIds_starts a l
  have hlen := a.length_eq
  rw [hrest]
  cases hbytes : a.bytes with
  | nil => simp [hbytes] at hlen
  | cons b bytes =>
    have hne : b ≠ underscore := fun h => a.underscore_free (by simp [hbytes, h])
    rw [List.cons_append, List.dropWhile_cons_of_neg (by simpa using hne)]

theorem skipId_cons (a b : DriveId) (m : ℕ) (l : List (ℕ × DriveId)) :
    skipId (driveIds a ((m, b) :: l)) = driveIds b l := by
  rw [skipId, driveIds, skip_address, List.replicate_succ, List.cons_append,
    List.dropWhile_cons_of_neg (by simp), List.dropWhile_cons_of_pos (by simp),
    List.dropWhile_append_of_pos (by simp), dropWhile_driveIds]

/-- What an iteration does at the start of an address. -/
theorem nvmeInitFrom_at (hopen : opens j = true) (a : DriveId) (l : List (ℕ × DriveId)) :
    nvmeInitFrom opens nd fresh (driveIds a l) j = .cons (j, a.bytes ++ [fresh j])
      (if j + 1 = nd then .returned []
        else nvmeInitFrom opens nd fresh (skipId (driveIds a l)) (j + 1)) := by
  obtain ⟨rest, hrest⟩ := driveIds_starts a l
  have hlen : (driveIds a l).length = 12 + rest.length := by
    rw [hrest, List.length_append, a.length_eq]
  have hne : driveIds a l ≠ [] := by
    intro h
    rw [h] at hlen
    simp at hlen
    omega
  have htake : (driveIds a l ++ [0]).take 12 = a.bytes := by
    rw [hrest, List.append_assoc, ← a.length_eq, List.take_left]
  rw [nvmeInitFrom, if_neg hne, if_neg (by omega), if_neg (by simp [hopen]), htake]

/-- The loop finds the addresses one by one, up to `ND` of them. -/
theorem nvmeInitFrom_eq (hopen : ∀ j, opens j = true) (fresh : ℕ → UInt8) (a : DriveId) (l : List (ℕ × DriveId))
    (hj : j < nd) : nvmeInitFrom opens nd fresh (driveIds a l) j =
      .returned (((addresses a l).take (nd - j)).mapIdx fun i b =>
        (j + i, b.bytes ++ [fresh (j + i)])) := by
  induction l generalizing a j with
  | nil =>
    obtain ⟨d, hd⟩ := Nat.exists_eq_add_of_lt hj
    rw [nvmeInitFrom_at (hopen j), skipId_last, nvmeInitFrom, if_pos rfl, ite_self]
    simp [addresses, InitEnd.cons, hd, Nat.add_assoc]
  | cons p l ih =>
    obtain ⟨m, b⟩ := p
    obtain ⟨d, hd⟩ := Nat.exists_eq_add_of_lt hj
    rw [nvmeInitFrom_at (hopen j), skipId_cons]
    have htake : nd - j = d + 1 := by omega
    rw [htake, addresses, List.map_cons, List.take_succ_cons, List.mapIdx_cons]
    split_ifs with hlast
    · have hd0 : d = 0 := by omega
      simp [hd0, InitEnd.cons]
    · rw [ih b (by omega), addresses, show nd - (j + 1) = d by omega]
      simp [InitEnd.cons, Nat.add_comm, Nat.add_left_comm]

theorem reqDid_lt (hnd : 0 < nd) (lba : ℕ) : reqDid nd lba < nd := Nat.mod_lt _ hnd

/-- The striping selects every drive. -/
theorem exists_reqDid {did : ℕ} (h : did < nd) : ∃ lba, reqDid nd lba = did := by
  refine ⟨raidFactor * did, ?_⟩
  rw [reqDid, Nat.mul_div_cancel_left did (by decide), Nat.mod_eq_of_lt h]

end Parse

/-- With at least one drive configured and every directory there, `nvme_init` makes all drives ready
if and only if there are `ND` addresses, and the byte behind each that it copies is a NUL. -/
theorem drives_ready_iff (opens : ℕ → Bool) (nd : ℕ) (fresh : ℕ → UInt8) (a : DriveId)
    (l : List (ℕ × DriveId)) (hnd : 0 < nd) (hopen : ∀ j, opens j = true) :
    (∃ calls, nvmeInitFrom opens nd fresh (driveIds a l) 0 = .returned calls ∧
      DrivesReady nd (addresses a l) calls) ↔
    nd ≤ (addresses a l).length ∧ ∀ j < nd, fresh j = 0 := by
  have hrun := nvmeInitFrom_eq hopen fresh a l hnd
  simp only [Nat.zero_add, Nat.sub_zero] at hrun
  generalize addresses a l = ids at hrun ⊢
  constructor
  · rintro ⟨calls, hcalls, hready⟩
    obtain rfl := InitEnd.returned.inj (hrun.symm.trans hcalls)
    have hlen : nd ≤ ids.length := by
      obtain ⟨lba, hlba⟩ := exists_reqDid (Nat.sub_lt hnd Nat.one_pos)
      obtain ⟨call, hmem, hcall⟩ := hready.selected lba
      obtain ⟨i, hi, rfl⟩ := List.mem_mapIdx.mp hmem
      have hi' : i = nd - 1 := hcall.trans hlba
      rw [List.length_take] at hi
      omega
    refine ⟨hlen, fun j hj => ?_⟩
    have hat := congrArg (fun calls => calls[j]?) hready.made
    have hid : (ids.take nd)[j]? = some ids[j] := by
      rw [List.getElem?_take_of_lt hj, List.getElem?_eq_getElem (by omega)]
    simpa [List.getElem?_mapIdx, hid] using hat
  · rintro ⟨hlen, hfresh⟩
    refine ⟨_, hrun, ?_, fun lba => ?_⟩
    · apply List.ext_getElem
      · simp
      · intro j hj hj'
        have hlt : j < nd := by
          simp only [List.length_mapIdx, List.length_take] at hj
          omega
        simp [hfresh j hlt]
    · have hdid := reqDid_lt hnd lba
      refine ⟨_, List.mem_mapIdx.mpr ⟨reqDid nd lba, ?_, rfl⟩, rfl⟩
      rw [List.length_take]
      omega

/-- `"0000:01:00.0"`. -/
def firstId : DriveId where
  bytes := [48, 48, 48, 48, 58, 48, 49, 58, 48, 48, 46, 48]
  nul_free := by simp
  length_eq := rfl
  underscore_free := by simp [underscore]

/-- The theorem at one drive and its address. -/
theorem one_drive_ready : ∃ calls,
    nvmeInitFrom (fun _ => true) 1 (fun _ => 0) (driveIds firstId []) 0 = .returned calls ∧
      DrivesReady 1 (addresses firstId []) calls :=
  (drives_ready_iff _ 1 _ firstId [] Nat.one_pos fun _ => rfl).mpr ⟨le_rfl, fun _ _ => rfl⟩

/-- With two drives configured and one address, requests for the second drive find no queue; and with
a 1 behind the buffer the path is another one. -/
theorem missing_drive_not_ready :
    (¬ ∃ calls, nvmeInitFrom (fun _ => true) 2 (fun _ => 0) (driveIds firstId []) 0 = .returned calls ∧
      DrivesReady 2 (addresses firstId []) calls) ∧
    nvmeInitFrom (fun _ => true) 2 (fun _ => 0) (driveIds firstId []) 0 =
      .returned [(0, firstId.bytes ++ [0])] ∧
    reqDid 2 raidFactor = 1 ∧
    ¬ ∃ calls, nvmeInitFrom (fun _ => true) 1 (fun _ => 1) (driveIds firstId []) 0 = .returned calls ∧
      DrivesReady 1 (addresses firstId []) calls := by
  refine ⟨fun h => ?_, by decide +kernel, rfl, fun h => ?_⟩
  · have hlen := ((drives_ready_iff _ 2 _ firstId [] (by decide) fun _ => rfl).mp h).1
    exact absurd hlen (by decide)
  · have hfresh := ((drives_ready_iff _ 1 _ firstId [] (by decide) fun _ => rfl).mp h).2 0 Nat.one_pos
    exact absurd hfresh (by decide)

end Pthabt.Nvme
