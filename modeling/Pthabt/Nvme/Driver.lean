import Pthabt.Lib.Run
import Pthabt.Nvme.QueueInv

/-! All queues of all drives: one pair for each core on each drive. `nvme_read_req`,
`nvme_write_req` and `nvme_check` find the queue of a request, the latter from the
identifier that the former returned. Which ULT calls them does not matter; a queue that
is locked is not entered. -/

namespace Pthabt.Nvme

open Lib Bytes Run

/-- `ND`, `N_CORE`, `QD`, and `_buf4k_pa` of the queues. The queue of a core is the one whose
number is greater by one. -/
structure Config where
  nd : ℕ
  nCore : ℕ
  qd : ℕ
  pa : ℕ → ℕ → ℕ → ℕ

def Config.qp (c : Config) (did core : ℕ) : QpConfig := ⟨c.nd, c.qd, c.pa did core⟩

structure Config.Paged (c : Config) : Prop where
  nd_pos : 1 ≤ c.nd
  nCore_pos : 1 ≤ c.nCore
  paged : ∀ did < c.nd, ∀ core < c.nCore, (c.qp did core).Paged

structure Config.Valid (c : Config) : Prop where
  nd_pos : 1 ≤ c.nd
  nCore_pos : 1 ≤ c.nCore
  qp : ∀ did < c.nd, ∀ core < c.nCore, (c.qp did core).Valid

/-- `qps` without the admin queues, the bytes of the drives, and user memory. -/
structure Driver where
  queue : ℕ → ℕ → Queue
  disk : ℕ → ℕ → Byte
  user : ℕ → Byte

/-- After `nvme_init`. -/
def nvmeInit (c : Config) (disk : ℕ → ℕ → Byte) (user : ℕ → Byte) : Driver :=
  ⟨fun _ _ => newQueue c.qd, disk, user⟩

namespace Driver

def port (S : Driver) (did core : ℕ) : Port := ⟨S.queue did core, S.disk did, S.user⟩

def put (S : Driver) (did core : ℕ) (s : Port) : Driver where
  queue := Function.update S.queue did (Function.update (S.queue did) core s.queue)
  disk := Function.update S.disk did s.disk
  user := s.user

@[simp] theorem put_queue_self (S : Driver) (did core : ℕ) (s : Port) :
    (S.put did core s).queue did core = s.queue := by simp [put]

theorem put_queue_of_ne (S : Driver) {did core d k : ℕ} (s : Port) (h : ¬ (d = did ∧ k = core)) :
    (S.put did core s).queue d k = S.queue d k := by
  by_cases hd : d = did
  · subst hd
    have hk : k ≠ core := fun hk => h ⟨rfl, hk⟩
    simp [put, hk]
  · simp [put, hd]

@[simp] theorem put_port (S : Driver) (did core : ℕ) : S.put did core (S.port did core) = S := by
  simp [put, port]

@[simp] theorem port_put (S : Driver) (did core : ℕ) (s : Port) :
    (S.put did core s).port did core = s := by simp [put, port]

@[simp] theorem put_put (S : Driver) (did core : ℕ) (s s' : Port) :
    (S.put did core s).put did core s' = S.put did core s' := by simp [put]

end Driver

/-! ### Request identifiers -/

/-- `did*QD*N_CORE + core_id*QD + cid`, an `int`. -/
def ridOf (c : Config) (did core cid : ℕ) : ℤ :=
  Int.bmod (did * c.qd * c.nCore + core * c.qd + cid) (2 ^ 32)

/-- `rid / QD / N_CORE`. -/
def ridDid (c : Config) (rid : ℤ) : ℕ := ((rid.tdiv c.qd).tdiv c.nCore).toNat

/-- `(rid / QD) % N_CORE`. -/
def ridCore (c : Config) (rid : ℤ) : ℕ := ((rid.tdiv c.qd).tmod c.nCore).toNat

/-- `rid % QD`. -/
def ridCid (c : Config) (rid : ℤ) : ℕ := (rid.tmod c.qd).toNat

/-- `done` as the two tests of `nvme_check(rid)` see it. Neither takes the lock, so a test can
fall into any state. A negative `rid` is not one of a queue. -/
def nvmeDone (c : Config) (S : Driver) (rid : ℤ) : Prop :=
  0 ≤ rid ∧ (S.queue (ridDid c rid) (ridCore c rid)).doneFlag (ridCid c rid) = 1

instance decidableNvmeDone (c : Config) (S : Driver) (rid : ℤ) : Decidable (nvmeDone c S rid) :=
  inferInstanceAs (Decidable (_ ∧ _))

theorem bmod_of_lt {v : ℕ} (h : v < 2 ^ 31) : Int.bmod (v : ℤ) (2 ^ 32) = v := by
  apply Int.bmod_eq_of_le_mul_two
  · push_cast
    omega
  · push_cast
    omega

/-- `rid` as a number, when it fits an `int`. -/
theorem ridOf_eq {c : Config} (hfit : c.nd * c.nCore * c.qd ≤ 2 ^ 31) {did core cid : ℕ}
    (hd : did < c.nd) (hk : core < c.nCore) (hcid : cid < c.qd) :
    ridOf c did core cid = (((did * c.nCore + core) * c.qd + cid : ℕ) : ℤ) := by
  have h1 : did * c.nCore + core < c.nd * c.nCore :=
    calc did * c.nCore + core < did * c.nCore + c.nCore := Nat.add_lt_add_left hk _
      _ = (did + 1) * c.nCore := by ring
      _ ≤ c.nd * c.nCore := Nat.mul_le_mul_right _ hd
  have h2 : (did * c.nCore + core) * c.qd + cid < c.nd * c.nCore * c.qd :=
    calc (did * c.nCore + core) * c.qd + cid < (did * c.nCore + core) * c.qd + c.qd :=
          Nat.add_lt_add_left hcid _
      _ = (did * c.nCore + core + 1) * c.qd := by ring
      _ ≤ c.nd * c.nCore * c.qd := Nat.mul_le_mul_right _ h1
  have hcast : ((did : ℤ) * c.qd * c.nCore + core * c.qd + cid) =
      (((did * c.nCore + core) * c.qd + cid : ℕ) : ℤ) := by
    push_cast
    ring
  unfold ridOf
  rw [hcast]
  exact bmod_of_lt (lt_of_lt_of_le h2 hfit)

/-- `nvme_check` finds the queue and the slot that the request returned. -/
theorem rid_decode {c : Config} (hfit : c.nd * c.nCore * c.qd ≤ 2 ^ 31) {did core cid : ℕ}
    (hd : did < c.nd) (hk : core < c.nCore) (hcid : cid < c.qd) :
    ridDid c (ridOf c did core cid) = did ∧ ridCore c (ridOf c did core cid) = core ∧
      ridCid c (ridOf c did core cid) = cid := by
  have hq : 0 < c.qd := Nat.zero_lt_of_lt hcid
  have hn : 0 < c.nCore := Nat.zero_lt_of_lt hk
  have hdiv : ((did * c.nCore + core) * c.qd + cid) / c.qd = did * c.nCore + core := by
    rw [Nat.add_comm, Nat.add_mul_div_right _ _ hq, Nat.div_eq_of_lt hcid, Nat.zero_add]
  have hdiv' : (did * c.nCore + core) / c.nCore = did := by
    rw [Nat.add_comm, Nat.add_mul_div_right _ _ hn, Nat.div_eq_of_lt hk, Nat.zero_add]
  rw [ridOf_eq hfit hd hk hcid]
  refine ⟨?_, ?_, ?_⟩
  · rw [ridDid, ← Int.ofNat_tdiv, ← Int.ofNat_tdiv, Int.toNat_natCast, hdiv, hdiv']
  · rw [ridCore, ← Int.ofNat_tdiv, ← Int.ofNat_tmod, Int.toNat_natCast, hdiv,
      Nat.mul_add_mod', Nat.mod_eq_of_lt hk]
  · rw [ridCid, ← Int.ofNat_tmod, Int.toNat_natCast, Nat.mul_add_mod', Nat.mod_eq_of_lt hcid]

/-! ### Steps -/

/-- A ULT calls a function of the driver, or the holder of a lock or a drive goes on. -/
inductive DriverStep where
  | nvmeReadReq (lba numBlk core len buf : ℕ)
  | nvmeWriteReq (lba numBlk core len buf : ℕ)
  | nvmeCheck (rid : ℤ)
  | host (did core : ℕ)
  | exec (did core i : ℕ)
  | post (did core i : ℕ) (x : Cqe)

namespace DriverStep

/-- The drive of the step's queue. -/
def did (c : Config) : DriverStep → ℕ
  | nvmeReadReq lba _ _ _ _ | nvmeWriteReq lba _ _ _ _ => reqDid c.nd lba
  | nvmeCheck rid => ridDid c rid
  | host did _ | exec did _ _ | post did _ _ _ => did

/-- The core of the step's queue. -/
def core (c : Config) : DriverStep → ℕ
  | nvmeReadReq _ _ core _ _ | nvmeWriteReq _ _ core _ _ => core
  | nvmeCheck rid => ridCore c rid
  | host _ core | exec _ core _ | post _ core _ _ => core

/-- What the step is for its queue. -/
def on : DriverStep → QueueStep
  | nvmeReadReq lba numBlk _ len buf => .request ⟨false, lba, numBlk, len, buf⟩
  | nvmeWriteReq lba numBlk _ len buf => .request ⟨true, lba, numBlk, len, buf⟩
  | nvmeCheck _ => .call
  | host _ _ => .host
  | exec _ _ i => .exec i
  | post _ _ i x => .post i x

/-- The host's steps. -/
def IsHost : DriverStep → Prop
  | exec _ _ _ | post _ _ _ _ => False
  | _ => True

def next (c : Config) (o : DriverStep) (S : Driver) : Driver :=
  S.put (o.did c) (o.core c) (o.on.step (c.qp (o.did c) (o.core c)) (S.port (o.did c) (o.core c)))

def step (c : Config) (o : DriverStep) (S : Driver) : Outcome Driver := .ok (o.next c S)

/-- The queue exists and can take the step; a request identifier is not negative. -/
def Admissible (c : Config) (o : DriverStep) (S : Driver) : Prop :=
  o.did c < c.nd ∧ o.core c < c.nCore ∧ o.on.Admissible (S.queue (o.did c) (o.core c)) ∧
    ∀ rid, o = nvmeCheck rid → 0 ≤ rid

instance decidableDriverAdmissible (c : Config) (o : DriverStep) (S : Driver) :
    Decidable (o.Admissible c S) :=
  have : Decidable (∀ rid, o = nvmeCheck rid → 0 ≤ rid) :=
    match o with
    | nvmeCheck rid => decidable_of_iff (0 ≤ rid) ⟨fun h _ he => nvmeCheck.inj he ▸ h, fun h => h rid rfl⟩
    | nvmeReadReq .. | nvmeWriteReq .. | host .. | exec .. | post .. => isTrue nofun
  inferInstanceAs (Decidable (_ ∧ _))

end DriverStep

/-- Every queue satisfies its invariant. -/
def DriverInv (c : Config) (S : Driver) : Prop :=
  ∀ did < c.nd, ∀ core < c.nCore, QueueInv (c.qp did core) (S.queue did core)

theorem inv_nvmeInit {c : Config} (hc : c.Valid) (disk : ℕ → ℕ → Byte) (user : ℕ → Byte) :
    DriverInv c (nvmeInit c disk user) :=
  fun did hd core hk => inv_newQueue (hc.qp did hd core hk)

theorem DriverInv.next {c : Config} (hc : c.Valid) {S : Driver} (h : DriverInv c S) {o : DriverStep}
    (hA : o.Admissible c S) : DriverInv c (o.next c S) := by
  intro did hd core hk
  unfold DriverStep.next
  by_cases hq : did = o.did c ∧ core = o.core c
  · obtain ⟨rfl, rfl⟩ := hq
    rw [Driver.put_queue_self]
    exact (h _ hd _ hk).step (hc.qp _ hd _ hk) _ hA.2.2.1
  · rw [Driver.put_queue_of_ne _ _ hq]
    exact h did hd core hk

end Pthabt.Nvme
