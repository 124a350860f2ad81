import Pthabt.Lib.Run
import Pthabt.Nvme.QueueInv

/-! The entries of `rbuf` and `len` that `check_cq` reads. `nvme_read_req` and `nvme_write_req` set
those of their command, but neither the constructor of `QP` nor `create_qp` and `__nvme_init`,
which issue commands with `new_sqe` and `req_and_wait`, ever do. So the completion of such a
command is tested against what an earlier command of its slot left, or against memory that
nothing has initialised. Of the submission entries, which lie beyond the completion queue,
nothing is modelled but the identifier, which the constructor stores and no issuer changes. -/

namespace Pthabt.Nvme

open Lib Run PhaseRing

/-- Who issues a command: `create_qp` or `__nvme_init`, `nvme_read_req` or `nvme_write_req`. -/
inductive Issuer where
  | admin
  | read (len buf : ℕ)
  | write

/-- A command, with its issuer and the identifier that `new_sqe` returned. -/
structure Issued where
  issuer : Issuer
  cid : ℕ
  stage : Stage

/-- Where `check_cq` was called: in `new_sqe`, `nvme_check` or `req_and_wait`. -/
inductive CheckCaller where
  | newSqe (k : Issuer)
  | check
  | reqAndWait (cid : ℕ)

/-- Where the host is. -/
inductive IssuePc where
  | idle
  | newSqe (k : Issuer)
  | fill (k : Issuer) (cid : ℕ)
  | doorbell (k : Issuer) (cid : ℕ)
  | checkCq (back : CheckCaller)
  | test (back : CheckCaller) (cid : ℕ)
  | mark (back : CheckCaller) (cid : ℕ)
  | done (cid : ℕ)

/-- What `check_cq` found in `rbuf` and `len` for the completion of command `id`, and which commands
had set the two entries. It copies `len` bytes when `rbuf` is not `NULL`. -/
structure BufTest where
  id : ℕ
  rbuf : ℕ
  len : ℕ
  rbufSet : Option ℕ
  lenSet : Option ℕ

/-- A `QP`. `rbufSet` and `lenSet` tell which command set an entry last; the commands, the completed
ones in ring order, how many of these were consumed, and the tests are its history. -/
structure IssueQueue where
  sqcq : ℕ → ℕ
  doneFlag : ℕ → ℕ
  rbuf : ℕ → ℕ
  len : ℕ → ℕ
  rbufSet : ℕ → Option ℕ
  lenSet : ℕ → Option ℕ
  sqTail : ℕ
  cqHead : ℕ
  cqPhase : Bool
  pc : IssuePc
  cmd : ℕ → Issued
  issued : ℕ
  posted : List ℕ
  taken : ℕ
  tests : List BufTest

/-- Command `i` at another stage. -/
def toStage (cmd : ℕ → Issued) (i : ℕ) (st : Stage) : ℕ → Issued :=
  Function.update cmd i { cmd i with stage := st }

namespace IssueQueue

/-- A queue as the constructor leaves it, whatever its `rbuf` and `len` hold. -/
def new (n : ℕ) (rbuf len : ℕ → ℕ) : IssueQueue where
  sqcq := initSqcq n
  doneFlag := fun _ => 2
  rbuf := rbuf
  len := len
  rbufSet := fun _ => none
  lenSet := fun _ => none
  sqTail := 0
  cqHead := 0
  cqPhase := true
  pc := .idle
  cmd := fun _ => ⟨.admin, 0, .consumed⟩
  issued := 0
  posted := []
  taken := 0
  tests := []

/-- A test of `done_flag[sq_tail]` in `new_sqe`, and the rest of it when the slot is free. -/
def claim (n : ℕ) (k : Issuer) (q : IssueQueue) : IssueQueue :=
  if q.doneFlag q.sqTail = 0 then { q with pc := .checkCq (.newSqe k) }
  else
    { q with
      doneFlag := Function.update q.doneFlag q.sqTail 0
      sqTail := (q.sqTail + 1) % n
      pc := .fill k q.sqTail
      cmd := Function.update q.cmd q.issued ⟨k, q.sqTail, .claimed⟩
      issued := q.issued + 1 }

/-- The stores to `rbuf[cid]` and `len[cid]` of the request that issued the last command. -/
def register (cid rbuf len : ℕ) (q : IssueQueue) : IssueQueue :=
  { q with
    rbuf := Function.update q.rbuf cid rbuf
    len := Function.update q.len cid len
    rbufSet := Function.update q.rbufSet cid (some (q.issued - 1))
    lenSet := Function.update q.lenSet cid (some (q.issued - 1)) }

/-- What an issuer does between `new_sqe` and `sq_doorbell`. -/
def fill (k : Issuer) (cid : ℕ) (q : IssueQueue) : IssueQueue :=
  let q := match k with
    | .admin => q
    | .read len buf => q.register cid buf len
    | .write => q.register cid 0 0
  { q with pc := .doorbell k cid, cmd := toStage q.cmd (q.issued - 1) .filled }

/-- `sq_doorbell`; `req_and_wait` goes on with `check_cq`. -/
def ring (k : Issuer) (cid : ℕ) (q : IssueQueue) : IssueQueue :=
  { q with
    pc := match k with
      | .admin => .checkCq (.reqAndWait cid)
      | _ => .idle
    cmd := toStage q.cmd (q.issued - 1) .submitted }

/-- A test of the phase bit in `check_cq`. -/
def testPhase (back : CheckCaller) (q : IssueQueue) : IssueQueue :=
  if cqeP q.sqcq q.cqHead = q.cqPhase then { q with pc := .test back (cqeCid q.sqcq q.cqHead) }
  else
    { q with
      pc := match back with
        | .newSqe k => .newSqe k
        | .check => .idle
        | .reqAndWait cid => .done cid }

/-- The command whose completion is at the head of the queue. -/
def nextId (q : IssueQueue) : ℕ := q.posted.getD q.taken 0

/-- The test of `rbuf[cid]` in `check_cq`, with the `memcpy`. -/
def testBuf (back : CheckCaller) (cid : ℕ) (q : IssueQueue) : IssueQueue :=
  { q with
    pc := .mark back cid
    tests := q.tests ++ [⟨q.nextId, q.rbuf cid, q.len cid, q.rbufSet cid, q.lenSet cid⟩] }

/-- The rest of a round of `check_cq`. -/
def mark (n : ℕ) (back : CheckCaller) (cid : ℕ) (q : IssueQueue) : IssueQueue :=
  { q with
    doneFlag := Function.update q.doneFlag cid 1
    cqHead := nextHead n q.cqHead
    cqPhase := nextPhase n q.cqHead q.cqPhase
    pc := .checkCq back
    cmd := toStage q.cmd q.nextId .consumed
    taken := q.taken + 1 }

/-- The test of `done(cid)` in `req_and_wait`. -/
def testDone (cid : ℕ) (q : IssueQueue) : IssueQueue :=
  { q with pc := if q.doneFlag cid = 1 then .idle else .checkCq (.reqAndWait cid) }

/-- The next step of the host. -/
def host (n : ℕ) (q : IssueQueue) : IssueQueue :=
  match q.pc with
  | .idle => q
  | .newSqe k => q.claim n k
  | .fill k cid => q.fill k cid
  | .doorbell k cid => q.ring k cid
  | .checkCq back => q.testPhase back
  | .test back cid => q.testBuf back cid
  | .mark back cid => q.mark n back cid
  | .done cid => q.testDone cid

/-- The drive completes command `i`. -/
def post (n i : ℕ) (x : Cqe) (q : IssueQueue) : IssueQueue :=
  { q with
    sqcq := writeCqe q.sqcq (q.posted.length % n)
      { x with cid := (q.cmd i).cid, p := tag n q.posted.length }
    cmd := toStage q.cmd i .posted
    posted := q.posted ++ [i] }

end IssueQueue

/-- The host issues a command, calls `nvme_check` or goes on, or the drive completes a command. -/
inductive IssueStep where
  | issue (k : Issuer)
  | check
  | host
  | post (i : ℕ) (x : Cqe)

def IssueStep.next (n : ℕ) : IssueStep → IssueQueue → IssueQueue
  | .issue k, q => { q with pc := .newSqe k }
  | .check, q => { q with pc := .checkCq .check }
  | .host, q => q.host n
  | .post i x, q => q.post n i x

def IssueStep.step (n : ℕ) (o : IssueStep) (q : IssueQueue) : Outcome IssueQueue := .ok (o.next n q)

/-- The host does one thing after the other, and the drive completes each submitted command once. -/
def IssueStep.Admissible : IssueStep → IssueQueue → Prop
  | .issue _, q | .check, q => q.pc = .idle
  | .host, _ => True
  | .post i _, q => i < q.issued ∧ (q.cmd i).stage = .submitted

/-- Both entries were set by the request of the very command that was completed. -/
def BufTest.Registered (t : BufTest) : Prop := t.rbufSet = some t.id ∧ t.lenSet = some t.id

def TestsRegistered (q : IssueQueue) : Prop := ∀ t ∈ q.tests, t.Registered

/-- A completion that is tested is not that of a command which `req_and_wait` waits for. -/
def IssueStep.Registering (o : IssueStep) (q : IssueQueue) : Prop :=
  match o, q.pc with
  | .host, .test _ _ => (q.cmd q.nextId).issuer ≠ .admin
  | _, _ => True

/-! ### Invariant -/

/-- The command without its issuer, which neither slots nor completions depend on. -/
def Issued.cmd (x : Issued) : Cmd := ⟨⟨true, 0, 0, 0, 0⟩, x.cid, x.stage⟩

def cmds (cmd : ℕ → Issued) : ℕ → Cmd := fun i => (cmd i).cmd

/-- What the place of the host says. -/
def IssuePlace (cmd : ℕ → Issued) (issued : ℕ) (posted : List ℕ) (taken : ℕ) : IssuePc → Prop
  | .fill k cid => 0 < issued ∧ cmd (issued - 1) = ⟨k, cid, .claimed⟩
  | .doorbell k cid => 0 < issued ∧ cmd (issued - 1) = ⟨k, cid, .filled⟩
  | .test _ cid | .mark _ cid => ∃ i, posted[taken]? = some i ∧ (cmd i).cid = cid
  | _ => True

/-- A command that was filled and not consumed has set the entries of its slot, unless nothing sets
them for it; and they are never set for such a command. -/
structure Registrations (cmd : ℕ → Issued) (issued : ℕ) (rbufSet lenSet : ℕ → Option ℕ) : Prop where
  own : ∀ i < issued, (cmd i).stage.Wired → (cmd i).issuer ≠ .admin →
    rbufSet (cmd i).cid = some i ∧ lenSet (cmd i).cid = some i
  by_request : ∀ cid i, rbufSet cid = some i → i < issued ∧ (cmd i).issuer ≠ .admin

structure IssueInv (n : ℕ) (q : IssueQueue) : Prop where
  slots : Slots n (cmds q.cmd) q.issued q.doneFlag q.sqTail
  ring : CqRing n (cmds q.cmd) q.issued q.posted q.taken q.sqcq q.cqHead q.cqPhase
  place : IssuePlace q.cmd q.issued q.posted q.taken q.pc
  registrations : Registrations q.cmd q.issued q.rbufSet q.lenSet
  tests : TestsRegistered q

/-- The sizes of the queues: `AQD` or `QD`, with room for the completion queue before the submission
queue. -/
structure QueueSize (n : ℕ) : Prop where
  pos : 0 < n
  le : n ≤ 1024

section Commands

variable {cmd : ℕ → Issued} {issued : ℕ}

@[simp] theorem toStage_cid (cmd : ℕ → Issued) (i : ℕ) (st : Stage) (k : ℕ) :
    (toStage cmd i st k).cid = (cmd k).cid := by
  by_cases h : k = i
  · subst h; simp [toStage]
  · simp [toStage, h]

@[simp] theorem toStage_issuer (cmd : ℕ → Issued) (i : ℕ) (st : Stage) (k : ℕ) :
    (toStage cmd i st k).issuer = (cmd k).issuer := by
  by_cases h : k = i
  · subst h; simp [toStage]
  · simp [toStage, h]

@[simp] theorem toStage_self (cmd : ℕ → Issued) (i : ℕ) (st : Stage) :
    toStage cmd i st i = { cmd i with stage := st } := Function.update_self ..

theorem toStage_of_ne (cmd : ℕ → Issued) (st : Stage) {i k : ℕ} (h : k ≠ i) :
    toStage cmd i st k = cmd k := Function.update_of_ne h ..

theorem cmds_toStage (cmd : ℕ → Issued) (i : ℕ) (st : Stage) :
    cmds (toStage cmd i st) = setStage (cmds cmd) i st := by
  funext k
  by_cases h : k = i
  · subst h
    simp [cmds, setStage, Issued.cmd]
  · rw [setStage_of_ne _ _ h, cmds, cmds, toStage_of_ne _ _ h]

theorem cmds_claim (cmd : ℕ → Issued) (i : ℕ) (x : Issued) :
    cmds (Function.update cmd i x) = Function.update (cmds cmd) i x.cmd := by
  funext k
  by_cases h : k = i
  · subst h
    simp [cmds]
  · simp [cmds, h]

theorem noRequest_fits : (⟨true, 0, 0, 0, 0⟩ : Request).Fits := ⟨Nat.zero_le _, nofun⟩

end Commands

/-! ### Registrations -/

section Registrations

variable {cmd : ℕ → Issued} {issued : ℕ} {rbufSet lenSet : ℕ → Option ℕ}

theorem Registrations.claim (h : Registrations cmd issued rbufSet lenSet) (k : Issuer) (cid : ℕ) :
    Registrations (Function.update cmd issued ⟨k, cid, .claimed⟩) (issued + 1) rbufSet lenSet := by
  refine ⟨fun i hi hw hk => ?_, fun c i hs => ?_⟩
  · by_cases he : i = issued
    · subst he
      rw [Function.update_self] at hw
      exact hw.elim
    · rw [Function.update_of_ne he] at hw hk ⊢
      exact h.own i (by omega) hw hk
  · obtain ⟨hi, hk⟩ := h.by_request c i hs
    rw [Function.update_of_ne hi.ne]
    exact ⟨Nat.lt_succ_of_lt hi, hk⟩

/-- A stage may change where it asks for nothing new. -/
theorem Registrations.toStage (h : Registrations cmd issued rbufSet lenSet) (i : ℕ) {st : Stage}
    (hw : st.Wired → (cmd i).issuer ≠ .admin → (cmd i).stage.Wired) :
    Registrations (toStage cmd i st) issued rbufSet lenSet := by
  refine ⟨fun k hk hs hissuer => ?_, fun c k hs => ?_⟩
  · rw [toStage_cid]
    rw [toStage_issuer] at hissuer
    refine h.own k hk ?_ hissuer
    by_cases he : k = i
    · subst he
      rw [toStage_self] at hs
      exact hw hs hissuer
    · rwa [toStage_of_ne _ _ he] at hs
  · rw [toStage_issuer]
    exact h.by_request c k hs

/-- A request sets the entries of its slot, which no other unconsumed command holds. -/
theorem Registrations.register (h : Registrations cmd issued rbufSet lenSet) {i : ℕ} (hi : i < issued)
    (hk : (cmd i).issuer ≠ .admin)
    (hother : ∀ k < issued, k ≠ i → (cmd k).stage ≠ .consumed → (cmd k).cid ≠ (cmd i).cid) :
    Registrations (Nvme.toStage cmd i .filled) issued
      (Function.update rbufSet (cmd i).cid (some i)) (Function.update lenSet (cmd i).cid (some i)) := by
  refine ⟨fun k hlt hs hissuer => ?_, fun c k hs => ?_⟩
  · rw [toStage_cid]
    rw [toStage_issuer] at hissuer
    by_cases he : k = i
    · subst he
      exact ⟨Function.update_self .., Function.update_self ..⟩
    · rw [toStage_of_ne _ _ he] at hs
      have hne := hother k hlt he hs.not_consumed
      rw [Function.update_of_ne hne, Function.update_of_ne hne]
      exact h.own k hlt hs hissuer
  · rw [toStage_issuer]
    by_cases hc : c = (cmd i).cid
    · subst hc
      rw [Function.update_self, Option.some.injEq] at hs
      exact hs ▸ ⟨hi, hk⟩
    · rw [Function.update_of_ne hc] at hs
      exact h.by_request c k hs

end Registrations

/-! ### Steps -/

section Steps

variable {n : ℕ} {q : IssueQueue}

theorem new_inv (hn : QueueSize n) (rbuf len : ℕ → ℕ) : IssueInv n (.new n rbuf len) where
  slots := by
    refine ⟨hn.pos, ?_, ?_, ?_, ?_⟩ <;> intro i hi <;> exact absurd hi (Nat.not_lt_zero i)
  ring := by
    refine ⟨holds_nil fun i _ => initSqcq_p _ i, (Nat.zero_mod _).symm, (tag_zero _).symm, le_rfl,
      Nat.zero_le _, ?_, List.nodup_nil, ?_, ?_⟩
    · intro i hi
      cases hi
    all_goals
      intro i hi
      exact absurd hi (Nat.not_lt_zero i)
  place := trivial
  registrations := ⟨fun i hi => absurd hi (Nat.not_lt_zero i), fun _ _ h => by cases h⟩
  tests := fun _ ht => by cases ht

/-- The host goes on without touching the queue. -/
theorem IssueInv.goto (h : IssueInv n q) {pc : IssuePc}
    (hplace : IssuePlace q.cmd q.issued q.posted q.taken pc) : IssueInv n { q with pc := pc } :=
  ⟨h.slots, h.ring, hplace, h.registrations, h.tests⟩

theorem IssueInv.claim (h : IssueInv n q) (k : Issuer) : IssueInv n (q.claim n k) := by
  by_cases hf : q.doneFlag q.sqTail = 0
  · rw [IssueQueue.claim, if_pos hf]
    exact h.goto trivial
  · rw [IssueQueue.claim, if_neg hf]
    refine ⟨?_, ?_, ⟨Nat.succ_pos _, Function.update_self ..⟩, h.registrations.claim k _, h.tests⟩
    · dsimp only
      rw [cmds_claim]
      exact h.slots.claim noRequest_fits hf
    · dsimp only
      rw [cmds_claim]
      exact h.ring.claim _ _

/-- The last command before it is filled, and its slot. -/
theorem IssueInv.filling (h : IssueInv n q) {k : Issuer} {cid : ℕ} (hpc : q.pc = .fill k cid) :
    q.issued - 1 < q.issued ∧ q.cmd (q.issued - 1) = ⟨k, cid, .claimed⟩ ∧
      ∀ i < q.issued, i ≠ q.issued - 1 → (q.cmd i).stage ≠ .consumed → (q.cmd i).cid ≠ cid := by
  have hplace := h.place
  rw [hpc] at hplace
  obtain ⟨hpos, hlast⟩ := hplace
  have hlt := Nat.sub_lt hpos Nat.one_pos
  refine ⟨hlt, hlast, fun i hi hne hs he => hne ?_⟩
  refine h.slots.distinct i hi _ hlt hs ?_ ?_
  · change (q.cmd (q.issued - 1)).stage ≠ .consumed
    rw [hlast]
    exact nofun
  · change (q.cmd i).cid = (q.cmd (q.issued - 1)).cid
    rw [he, hlast]

/-- The stage of the last command changes before it is completed. -/
theorem IssueInv.last_stage (h : IssueInv n q) (st st' : Stage) (hpos : q.issued - 1 < q.issued)
    (hst : (q.cmd (q.issued - 1)).stage = st) (hp : st ≠ .posted) (hc : st ≠ .consumed)
    (hp' : st' ≠ .posted) (hc' : st' ≠ .consumed) :
    Slots n (cmds (toStage q.cmd (q.issued - 1) st')) q.issued q.doneFlag q.sqTail ∧
      CqRing n (cmds (toStage q.cmd (q.issued - 1) st')) q.issued q.posted q.taken q.sqcq q.cqHead
        q.cqPhase := by
  have hstage : (cmds q.cmd (q.issued - 1)).stage = st := hst
  rw [cmds_toStage]
  exact ⟨h.slots.setStage (by rw [hstage]; exact hc) _,
    h.ring.setStage hpos (by rw [hstage]; exact hp) (by rw [hstage]; exact hc) hp' hc'⟩

theorem IssueInv.fill (h : IssueInv n q) {k : Issuer} {cid : ℕ} (hpc : q.pc = .fill k cid) :
    IssueInv n (q.fill k cid) := by
  obtain ⟨hlt, hlast, hother⟩ := h.filling hpc
  obtain ⟨hslots, hring⟩ := h.last_stage .claimed .filled hlt (by rw [hlast]) nofun nofun nofun nofun
  have hplace : IssuePlace (toStage q.cmd (q.issued - 1) .filled) q.issued q.posted q.taken
      (.doorbell k cid) := by
    refine ⟨Nat.zero_lt_of_lt hlt, ?_⟩
    rw [toStage_self, hlast]
  have hcid : (q.cmd (q.issued - 1)).cid = cid := by rw [hlast]
  have hissuer : (q.cmd (q.issued - 1)).issuer = k := by rw [hlast]
  cases k with
  | admin =>
    exact ⟨hslots, hring, hplace, h.registrations.toStage _ fun _ hk => absurd hissuer hk, h.tests⟩
  | read len buf =>
    have hreg := h.registrations.register hlt (by rw [hissuer]; exact nofun) (hcid.symm ▸ hother)
    rw [hcid] at hreg
    exact ⟨hslots, hring, hplace, hreg, h.tests⟩
  | write =>
    have hreg := h.registrations.register hlt (by rw [hissuer]; exact nofun) (hcid.symm ▸ hother)
    rw [hcid] at hreg
    exact ⟨hslots, hring, hplace, hreg, h.tests⟩

theorem IssueInv.doorbell (h : IssueInv n q) {k : Issuer} {cid : ℕ} (hpc : q.pc = .doorbell k cid) :
    IssueInv n (q.ring k cid) := by
  have hplace := h.place
  rw [hpc] at hplace
  obtain ⟨hpos, hlast⟩ := hplace
  have hlt := Nat.sub_lt hpos Nat.one_pos
  obtain ⟨hslots, hring⟩ := h.last_stage .filled .submitted hlt (by rw [hlast]) nofun nofun nofun
    nofun
  refine ⟨hslots, hring, ?_, h.registrations.toStage _ fun _ _ => ?_, h.tests⟩
  · cases k <;> trivial
  · rw [hlast]
    trivial

theorem IssueInv.testPhase (h : IssueInv n q) (hn : QueueSize n) (back : CheckCaller) :
    IssueInv n (q.testPhase back) := by
  by_cases hp : cqeP q.sqcq q.cqHead = q.cqPhase
  · have hlt := (h.ring.phase_iff hn.pos).mp hp
    unfold IssueQueue.testPhase
    rw [if_pos hp]
    exact h.goto ⟨q.posted[q.taken], List.getElem?_eq_getElem hlt, (h.ring.head_cid hlt).symm⟩
  · unfold IssueQueue.testPhase
    rw [if_neg hp]
    refine h.goto ?_
    cases back <;> trivial

/-- The completion at the head of the queue, while the host works on it. -/
theorem IssueInv.head (h : IssueInv n q) {cid : ℕ}
    (hplace : ∃ i, q.posted[q.taken]? = some i ∧ (q.cmd i).cid = cid) :
    q.posted[q.taken]? = some q.nextId ∧ (q.cmd q.nextId).cid = cid ∧ q.nextId < q.issued ∧
      (q.cmd q.nextId).stage = .posted := by
  obtain ⟨i, hget, hcid⟩ := hplace
  have hid : q.nextId = i := by simp [IssueQueue.nextId, List.getD, hget]
  obtain ⟨hlt, hi⟩ := List.getElem?_eq_some_iff.mp hget
  have hissued := h.ring.posted_lt i (hi ▸ List.getElem_mem hlt)
  rw [hid]
  refine ⟨hget, hcid, hissued, (h.ring.isPosted i hissued).mpr ?_⟩
  rw [List.drop_eq_getElem_cons hlt, hi]
  exact List.mem_cons_self

theorem IssueInv.testBuf (h : IssueInv n q) {back : CheckCaller} {cid : ℕ}
    (hpc : q.pc = .test back cid) (hC : (q.cmd q.nextId).issuer ≠ .admin) :
    IssueInv n (q.testBuf back cid) := by
  have hplace := h.place
  rw [hpc] at hplace
  obtain ⟨-, hcid, hlt, hposted⟩ := h.head hplace
  obtain ⟨hr, hl⟩ := h.registrations.own _ hlt (by rw [hposted]; trivial) hC
  rw [hcid] at hr hl
  refine ⟨h.slots, h.ring, hplace, h.registrations, fun t ht => ?_⟩
  rcases List.mem_append.mp ht with ht | ht
  · exact h.tests t ht
  · rw [List.mem_singleton.mp ht]
    exact ⟨hr, hl⟩

/-- Nothing has set the entries for a command of `req_and_wait`. -/
theorem IssueInv.testBuf_admin (h : IssueInv n q) (back : CheckCaller) (cid : ℕ)
    (hC : (q.cmd q.nextId).issuer = .admin) : ¬ TestsRegistered (q.testBuf back cid) := by
  intro htests
  obtain ⟨hr, -⟩ := htests _ (List.mem_append_right _ (List.mem_singleton_self _))
  exact (h.registrations.by_request cid q.nextId hr).2 hC

theorem IssueInv.mark (h : IssueInv n q) (hn : QueueSize n) {back : CheckCaller} {cid : ℕ}
    (hpc : q.pc = .mark back cid) : IssueInv n (q.mark n back cid) := by
  have hplace := h.place
  rw [hpc] at hplace
  obtain ⟨hget, hcid, hlt, hposted⟩ := h.head hplace
  have hstage : (cmds q.cmd q.nextId).stage = .posted := hposted
  refine ⟨?_, ?_, trivial, h.registrations.toStage _ fun hw _ => hw.elim, h.tests⟩
  · rw [IssueQueue.mark, ← hcid]
    dsimp only
    rw [cmds_toStage]
    exact h.slots.consume hlt (by rw [hstage]; exact nofun)
  · dsimp only [IssueQueue.mark]
    rw [cmds_toStage]
    exact h.ring.take hn.pos hget

theorem IssueInv.post (h : IssueInv n q) (hn : QueueSize n) {i : ℕ} (hi : i < q.issued)
    (hs : (q.cmd i).stage = .submitted) (x : Cqe) : IssueInv n (q.post n i x) := by
  have hstage : (cmds q.cmd i).stage = .submitted := hs
  have hp : (cmds q.cmd i).stage ≠ .posted := by
    rw [hstage]
    simp
  have hc : (cmds q.cmd i).stage ≠ .consumed := by
    rw [hstage]
    simp
  have hcid : (cmds q.cmd i).cid < n := h.slots.cid_lt i hi
  have hle := hn.le
  have hroom := h.ring.room h.slots hi hp hc
  refine ⟨?_, ?_, ?_, h.registrations.toStage _ fun _ _ => (by rw [hs]; trivial), h.tests⟩
  · dsimp only [IssueQueue.post]
    rw [cmds_toStage]
    exact h.slots.setStage hc _
  · dsimp only [IssueQueue.post]
    rw [cmds_toStage]
    exact h.ring.post hi hp hc hroom (by omega) x
  · have hplace := h.place
    have hlast : ∀ y : Issued, q.cmd (q.issued - 1) = y → y.stage = .claimed ∨ y.stage = .filled →
        toStage q.cmd i .posted (q.issued - 1) = y := by
      rintro y rfl hy
      refine toStage_of_ne _ _ ?_
      rintro rfl
      rw [hs] at hy
      rcases hy with hy | hy <;> cases hy
    dsimp only [IssueQueue.post]
    cases hpc : q.pc with
    | fill k cid =>
      rw [hpc] at hplace
      exact ⟨hplace.1, hlast _ hplace.2 (Or.inl rfl)⟩
    | doorbell k cid =>
      rw [hpc] at hplace
      exact ⟨hplace.1, hlast _ hplace.2 (Or.inr rfl)⟩
    | test back cid | mark back cid =>
      rw [hpc] at hplace
      obtain ⟨k, hk, hkc⟩ := hplace
      obtain ⟨hlt, -⟩ := List.getElem?_eq_some_iff.mp hk
      exact ⟨k, by rw [List.getElem?_append_left hlt, hk], by rw [toStage_cid, hkc]⟩
    | _ => trivial

end Steps

theorem issueInv_step {n : ℕ} (hn : QueueSize n) (o : IssueStep) (q : IssueQueue) (h : IssueInv n q)
    (hA : o.Admissible q) (hC : o.Registering q) : (o.step n q).Safe (IssueInv n) := by
  cases o with
  | issue k => exact h.goto trivial
  | check => exact h.goto trivial
  | post i x => exact h.post hn hA.1 hA.2 x
  | host =>
    change IssueInv n (q.host n)
    unfold IssueQueue.host
    cases hpc : q.pc with
    | idle => exact h
    | newSqe k => exact h.claim k
    | fill k cid => exact h.fill hpc
    | doorbell k cid => exact h.doorbell hpc
    | checkCq back => exact h.testPhase hn back
    | test back cid =>
      simp only [IssueStep.Registering, hpc] at hC
      exact h.testBuf hpc hC
    | mark back cid => exact h.mark hn hpc
    | done cid =>
      refine h.goto ?_
      split_ifs <;> trivial

theorem unregistered_step {n : ℕ} (o : IssueStep) (q : IssueQueue) (h : IssueInv n q)
    (hC : ¬ o.Registering q) : ¬ (o.step n q).Safe TestsRegistered := by
  unfold IssueStep.Registering at hC
  cases o with
  | host =>
    cases hpc : q.pc with
    | test back cid =>
      simp only [hpc, ne_eq, not_not] at hC
      change ¬ TestsRegistered (q.host n)
      rw [IssueQueue.host, hpc]
      exact h.testBuf_admin back cid hC
    | _ => simp [hpc] at hC
  | _ => exact absurd trivial hC

/-- Every test of `rbuf` and `len` is for entries that the request of the completed command set, exactly
in the runs that test no completion of a command issued with `req_and_wait`. -/
theorem tests_registered_iff {n : ℕ} (hn : QueueSize n) (rbuf len : ℕ → ℕ) (steps : List IssueStep)
    (hA : Meets (IssueStep.step n) IssueStep.Admissible steps (.new n rbuf len)) :
    Always (IssueStep.step n) TestsRegistered steps (.new n rbuf len) ↔
      Meets (IssueStep.step n) IssueStep.Registering steps (.new n rbuf len) :=
  always_iff_meets (fun _ h => h.tests) (issueInv_step hn)
    (fun o q h _ hC => unregistered_step o q h hC) (new_inv hn rbuf len) hA

theorem adminQueue_size : QueueSize 8 := ⟨by decide, by decide⟩

/-- The steps of the host for one command that is completed before `check_cq` is called. -/
def oneCommand (k : Issuer) : List IssueStep :=
  [.issue k, .host, .host, .host, .post 0 ⟨0, 0, 0, 0, false, 0⟩]

/-- The theorem at one read. -/
theorem read_registered :
    Always (IssueStep.step 8) TestsRegistered
      (oneCommand (.read 512 4096) ++ [.check, .host, .host, .host, .host])
      (.new 8 (fun _ => 1) (fun _ => 1)) := by
  refine (tests_registered_iff adminQueue_size _ _ _ ?_).mpr ?_
  · exact ⟨rfl, trivial, trivial, trivial, ⟨Nat.zero_lt_one, rfl⟩, rfl, trivial, trivial, trivial, trivial,
      trivial⟩
  · exact ⟨trivial, trivial, trivial, trivial, trivial, trivial, trivial, nofun, trivial, trivial, trivial⟩

/-- The identify command of a new admin queue: its completion is tested against a word that nothing has
set, and as this is not zero, as many bytes as another such word says are copied there. -/
theorem identify_not_registered :
    Meets (IssueStep.step 8) IssueStep.Admissible (oneCommand .admin ++ [.host, .host])
        (.new 8 (fun _ => 1) (fun _ => 1)) ∧
      ¬ Always (IssueStep.step 8) TestsRegistered (oneCommand .admin ++ [.host, .host])
        (.new 8 (fun _ => 1) (fun _ => 1)) := by
  constructor
  · exact ⟨rfl, trivial, trivial, trivial, ⟨Nat.zero_lt_one, rfl⟩, trivial, trivial, trivial⟩
  · rintro ⟨-, -, -, -, -, -, -, h⟩
    obtain ⟨hset, -⟩ := h ⟨0, 1, 1, none, none⟩ (List.mem_singleton_self _)
    cases hset

end Pthabt.Nvme
