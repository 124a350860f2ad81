import Pthabt.Hook.ReadAfterWrite
import Pthabt.Lib.Ranges
import Pthabt.Myfs.RefCount
import Pthabt.Nvme.SharedQueue

/-! `read_impl` delivers its range. One ULT is in the call; others use the same queues at any time,
change the file system and write memory, and the drives answer in any order. A log beside
the system has the requests of the call and those that it has waited for. -/

namespace Pthabt.Hook

open Lib Run Bytes Myfs Nvme

/-! ### A call among others -/

/-- The ULT in the call, another ULT in the driver or a drive, and what other ULTs do to the file
system and to memory. -/
inductive Turn where
  | next
  | driver (o : DriverStep)
  | files (fs : Fs numBlocks)
  | store (user : ℕ → Byte)

def Turn.step (c : IoConfig) : Turn → System → Outcome System
  | .next, s => s.next c
  | .driver o, s => .ok { s with driver := o.next c.nvme s.driver }
  | .files fs, s => .ok { s with fs := fs }
  | .store user, s => .ok { s with driver := { s.driver with user := user } }

namespace System

/-- The queue whose lock the call takes at its next step. -/
def takes (c : IoConfig) (s : System) : Option (ℕ × ℕ) :=
  match s.io with
  | none => none
  | some io =>
    match io.call with
    | .loop =>
      match io.loop c with
      | (_, some (.request _ j)) =>
        match myfsGetLba s.fs.sb io.hookfd ((io.pos + j) % 2 ^ 64) io.write with
        | some (_, some lba) => some (reqDid c.nvme.nd lba, io.core)
        | _ => none
      | _ => none
    | .test again k _ =>
      if nvmeDone c.nvme s.driver (io.rid k) ∨ again then none
      else some (ridDid c.nvme (io.rid k), ridCore c.nvme (io.rid k))
    | .request .. | .poll .. => none

theorem takes_request {c : IoConfig} {s : System} {io : Io} {back : LoopPc} {rqK j lba : ℕ}
    {sb : Superblock numBlocks} (hio : s.io = some io) (hat : io.call = .loop)
    (hl : io.loop c = (back, some (.request rqK j)))
    (hget : myfsGetLba s.fs.sb io.hookfd ((io.pos + j) % 2 ^ 64) io.write = some (sb, some lba)) :
    s.takes c = some (reqDid c.nvme.nd lba, io.core) := by
  simp only [takes, hio, hat, hl, hget]

theorem takes_check {c : IoConfig} {s : System} {io : Io} {back : LoopPc} {again : Bool} {k : ℕ}
    (hio : s.io = some io) (hat : io.call = .test again k back)
    (hdone : ¬ nvmeDone c.nvme s.driver (io.rid k)) (hagain : ¬ again = true) :
    s.takes c = some (ridDid c.nvme (io.rid k), ridCore c.nvme (io.rid k)) := by
  have hno : ¬ (nvmeDone c.nvme s.driver (io.rid k) ∨ again = true) := not_or.mpr ⟨hdone, hagain⟩
  simp only [takes, hio, hat, if_neg hno]

/-- The queue whose lock the call holds. The step after `check_cq` is the one that unlocks. -/
def holds (c : IoConfig) (s : System) : Option (ℕ × ℕ) :=
  match s.io with
  | none => none
  | some io =>
    match io.call with
    | .request did _ _ => some (did, io.core)
    | .poll k _ => some (ridDid c.nvme (io.rid k), ridCore c.nvme (io.rid k))
    | .loop | .test .. => none

end System

/-- A lock is taken when it is free and released by its holder. Others leave the memory and the
bytes of `v` alone, and the entries `stays` of block tables. -/
def Turn.Admissible (c : IoConfig) (v : Reserve) (stays : ℕ → ℕ → Prop) : Turn → System → Prop
  | .next, s => ∀ q, s.takes c = some q → (s.driver.queue q.1 q.2).pc = .idle
  | .driver o, s => o.Admissible c.nvme s.driver ∧
    (o.IsHost → s.holds c ≠ some (o.did c.nvme, o.core c.nvme)) ∧
      ∀ r, o.on = .request r → Foreign (c.nvme.qp (o.did c.nvme) (o.core c.nvme)) v (o.did c.nvme) r
  | .files fs, s => ∀ i b, stays i b → (fs.sb.file i).block b = (s.fs.sb.file i).block b
  | .store user, s => ∀ x, v.own x → user x = s.driver.user x

/-- The requests that a call has made, which of them `rid[k]` is of, and for which ones `nvme_check`
has returned 1. -/
structure ReadLog where
  reqs : List Request
  index : ℕ → ℕ
  waited : List ℕ

def ReadLog.empty : ReadLog := ⟨[], fun _ => 0, []⟩

/-- What the next step of the call adds to its log. -/
def System.log (c : IoConfig) (s : System) (l : ReadLog) : ReadLog :=
  match s.io with
  | none => l
  | some io =>
    match io.call with
    | .request did rqK _ =>
      match (s.driver.queue did io.core).pc with
      | .doorbell r _ => ⟨l.reqs ++ [r], Function.update l.index rqK l.reqs.length, l.waited⟩
      | _ => l
    | .test _ k _ =>
      if nvmeDone c.nvme s.driver (io.rid k) then { l with waited := l.waited ++ [l.index k] } else l
    | .loop | .poll .. => l

/-- A system with the log of the call in progress. -/
structure Logged where
  system : System
  log : ReadLog

def Turn.logged (c : IoConfig) : Turn → Logged → Outcome Logged
  | .next, p => (p.system.next c).map fun s => ⟨s, p.system.log c p.log⟩
  | o, p => (o.step c p.system).map fun s => ⟨s, p.log⟩

/-! ### What a call delivers -/

/-- Blocks `0` to `n_block - 1` of a file are mapped. -/
structure FileMapped (sb : Superblock numBlocks) (i : ℕ) : Prop where
  lt : i < maxFiles
  nBlock_le : (sb.file i).nBlock ≤ maxBlocksPerFile
  mapped : ∀ b < (sb.file i).nBlock, 0 ≤ (sb.file i).block b ∧ (sb.file i).block b < numBlocks

namespace Io

/-- The bytes of the file that a request of the call is for. -/
def range (a : Io) (r : Request) : ℕ × ℕ := (a.pos + (r.buf - a.buf), r.len)

/-- The request of the call for the bytes at `buf + j`. -/
def requestAt (sb : Superblock numBlocks) (a : Io) (j : ℕ) : Request :=
  ioRequest false (lbaOf ((sb.file a.hookfd).block ((a.pos + j) / blockSize)) (a.pos + j)) a.blksz a.ioLen
    j a.buf

end Io

/-- A read from the mapped address of its range into its part of `buf`, within one chunk of the
file. -/
structure InOneChunk (sb : Superblock numBlocks) (a : Io) (r : Request) : Prop where
  read : r.write = false
  buf_le : a.buf ≤ r.buf
  lba : r.lba = lbaOf ((sb.file a.hookfd).block ((a.range r).1 / blockSize)) (a.range r).1
  chunk : (a.range r).1 % blksz + r.len ≤ blksz
  len_le : r.len ≤ blksz

/-- A call `a` that began in `s₀` makes its requests in order. When it has returned they cover its
range, it has waited for all of them, and `buf` has the bytes of the drives; nothing else in
the memory `own` has changed. -/
structure Delivers (c : IoConfig) (s₀ : System) (a : Io) (own : ℕ → Prop) (p : Logged) : Prop where
  requests : ∀ r ∈ p.log.reqs, InOneChunk s₀.fs.sb a r
  tiles : ∃ n ≤ a.ioLen, Tiles (p.log.reqs.map a.range) a.pos (a.pos + n)
  unchanged : ∀ x, own x → (x < a.buf ∨ a.buf + a.ioLen ≤ x) → p.system.driver.user x = s₀.driver.user x
  covered : p.system.io = none → Tiles (p.log.reqs.map a.range) a.pos (a.pos + a.ioLen)
  waited : p.system.io = none → ∀ n < p.log.reqs.length, n ∈ p.log.waited
  delivered : p.system.io = none → ∀ k < a.ioLen, p.system.driver.user (a.buf + k) =
    byteOn p.system.driver.disk (byteAddr c.nvme.nd s₀.fs.sb a.hookfd (a.pos + k))

/-! ### The range of a call -/

/-- What is known of a call of `read_impl` when it begins. -/
structure ReadCall (c : IoConfig) (s₀ : System) (a : Io) (v : Reserve) : Prop where
  core_lt : a.core < c.nvme.nCore
  write : a.write = false
  file : FileMapped s₀.fs.sb a.hookfd
  pos : a.pos % 512 = 0
  buf : a.buf ≠ 0
  within : ∀ j < a.ioLen, a.pos + j < (s₀.fs.sb.file a.hookfd).nBlock * blockSize
  len_lt : a.ioLen < 2 ^ 31 - 4096
  own : ∀ k < a.ioLen, v.own (a.buf + k)
  kept : v.kept = rangeAt c.nvme.nd s₀.fs.sb a.hookfd a.pos a.ioLen

/-- Memory as it will be when the call returns. -/
def wish (c : IoConfig) (s₀ : System) (a : Io) : ℕ → Byte := fun x =>
  if a.buf ≤ x ∧ x < a.buf + a.ioLen then
    wantedAt s₀.driver.disk c.nvme.nd s₀.fs.sb a.hookfd a.pos a.buf x
  else s₀.driver.user x

section Range

variable {c : IoConfig} {s₀ : System} {a : Io} {v : Reserve} {j : ℕ}

theorem wish_at {k : ℕ} (hk : k < a.ioLen) : wish c s₀ a (a.buf + k) =
    byteOn s₀.driver.disk (byteAddr c.nvme.nd s₀.fs.sb a.hookfd (a.pos + k)) := by
  have hin : a.buf ≤ a.buf + k ∧ a.buf + k < a.buf + a.ioLen := by omega
  rw [wish, if_pos hin, wantedAt, Nat.add_sub_cancel_left]

theorem wish_outside {x : ℕ} (hx : x < a.buf ∨ a.buf + a.ioLen ≤ x) :
    wish c s₀ a x = s₀.driver.user x := by
  have hout : ¬ (a.buf ≤ x ∧ x < a.buf + a.ioLen) := by omega
  rw [wish, if_neg hout]

theorem ReadCall.blksz_pos (h : ReadCall c s₀ a v) (hlt : j < a.ioLen) : 0 < a.blksz := by
  rw [Io.blksz_read h.write]
  exact readBlksz_pos _ (by omega)

/-- Offsets in the file are small numbers in mapped blocks. -/
theorem ReadCall.inBlock (h : ReadCall c s₀ a v) (hlt : j < a.ioLen) :
    a.pos + j < maxBlocksPerFile * blockSize ∧ (a.pos + j) / blockSize < (s₀.fs.sb.file a.hookfd).nBlock ∧
      InBlock s₀.fs.sb a.hookfd (a.pos + j) := by
  have hx := h.within j hlt
  have hbs : 0 < blockSize := by simp [blockSize]
  have hb := (Nat.div_lt_iff_lt_mul hbs).mpr hx
  exact ⟨lt_of_lt_of_le hx (Nat.mul_le_mul_right _ h.file.nBlock_le), hb, h.file.mapped _ hb⟩

/-- The places of the requests. -/
theorem ReadCall.aligned (h : ReadCall c s₀ a v) (hdvd : a.blksz ∣ j) (hlt : j < a.ioLen) :
    (a.pos + j) % 512 = 0 ∧ (a.pos + j) / 512 % raidFactor + numBlk a.blksz ≤ raidFactor ∧
      numBlk a.blksz * 512 ≤ Nvme.blksz ∧ j + a.blksz < 2 ^ 31 := by
  rw [Io.blksz_read h.write] at hdvd ⊢
  obtain ⟨hsector, hchunk, hsize⟩ := aligned_of_read h.pos hdvd hlt
  exact ⟨hsector, hchunk, hsize, step_of_read hlt hdvd h.len_lt⟩

/-- A request of the call is for what it is to bring. -/
theorem ReadCall.ours (h : ReadCall c s₀ a v) (hdvd : a.blksz ∣ j) (hlt : j < a.ioLen) {did core : ℕ}
    (hdid : did = reqDid c.nvme.nd (a.requestAt s₀.fs.sb j).lba) :
    Ours (c.nvme.qp did core) v (wish c s₀ a) s₀.driver.disk did (a.requestAt s₀.fs.sb j) := by
  obtain ⟨hpos, hchunk, hsize, -⟩ := h.aligned hdvd hlt
  obtain ⟨-, -, hb⟩ := h.inBlock hlt
  have hjob : ReadJob (c.nvme.qp did core) (wantedAt s₀.driver.disk c.nvme.nd s₀.fs.sb a.hookfd a.pos a.buf)
      (s₀.driver.disk did) (a.requestAt s₀.fs.sb j) :=
    readJob_of_chunk hb hpos (h.blksz_pos hlt) ⟨hchunk, hsize⟩ s₀.driver.disk rfl hdid
  have hin : ∀ k < (a.requestAt s₀.fs.sb j).len, j + k < a.ioLen := by
    intro k hk
    have hle := reqLen_le_sub a.blksz a.ioLen j
    have hk : k < reqLen a.blksz a.ioLen j := hk
    omega
  refine ⟨rfl, hjob.whole, fun k hk => ?_, fun k hk => ?_, fun k hk => ?_⟩
  · have hown := h.own (j + k) (hin k hk)
    rwa [← Nat.add_assoc] at hown
  · rw [h.kept]
    refine ⟨j + k, hin k hk, ?_⟩
    rw [byteAddr_chunk c.nvme.nd hb hpos hchunk rfl hdid (lt_of_lt_of_le hk hjob.whole.len_le)]
    rfl
  · have hk' := hin k hk
    have hbuf : (a.requestAt s₀.fs.sb j).buf + k = a.buf + (j + k) := Nat.add_assoc _ _ _
    rw [hjob.wanted k hk, hbuf, wish_at hk', wantedAt, Nat.add_sub_cancel_left]

theorem ReadCall.requestAt_len_pos (h : ReadCall c s₀ a v) (hlt : j < a.ioLen) :
    0 < (a.requestAt s₀.fs.sb j).len := lt_reqLen (h.blksz_pos hlt) hlt

theorem ReadCall.inOneChunk (h : ReadCall c s₀ a v) (hdvd : a.blksz ∣ j) (hlt : j < a.ioLen) :
    InOneChunk s₀.fs.sb a (a.requestAt s₀.fs.sb j) := by
  obtain ⟨hpos, hchunk, hsize, -⟩ := h.aligned hdvd hlt
  have hrange : (a.range (a.requestAt s₀.fs.sb j)).1 = a.pos + j :=
    congrArg (a.pos + ·) (Nat.add_sub_cancel_left a.buf j)
  have hle : (a.requestAt s₀.fs.sb j).len ≤ numBlk a.blksz * 512 :=
    (reqLen_le a.blksz a.ioLen j).trans (step_le_numBlk a.blksz)
  refine ⟨rfl, Nat.le_add_right _ _, ?_, ?_, hle.trans hsize⟩
  · rw [hrange]
    rfl
  · rw [hrange]
    rw [raidFactor_eq] at hchunk
    rw [Nvme.blksz] at hsize ⊢
    omega

end Range

/-! ### The log of a call -/

/-- The loop has made `n` requests. -/
def AtRequest (n step len : ℕ) : LoopPc → Prop
  | .outer j | .inner _ j | .wait _ _ j => j = n * step
  | .done => len ≤ n * step

section Log

variable {deg step len n : ℕ} {pc pc' : LoopPc} {sb : Superblock numBlocks} {a : Io} {l : ReadLog}

theorem AtRequest.quiet (h : AtRequest n step len pc) (hs : readStep deg step len pc = (pc', none)) :
    AtRequest n step len pc' := by
  cases pc with
  | outer j =>
    simp only [readStep] at hs
    split_ifs at hs with hj
    · cases hs
      exact h
    · cases hs
      exact (Nat.le_of_not_lt hj).trans_eq h
  | inner rqK j =>
    simp only [readStep] at hs
    split_ifs at hs
    · cases hs
      exact h
    · cases hs
    · cases hs
      exact h
  | wait k rqK j =>
    simp only [readStep] at hs
    split_ifs at hs
    · cases hs
    · cases hs
      exact h
  | done =>
    cases hs
    exact h

theorem AtRequest.check (h : AtRequest n step len pc) {k : ℕ}
    (hs : readStep deg step len pc = (pc', some (.check k))) : AtRequest n step len pc' := by
  cases pc with
  | wait k' rqK j =>
    simp only [readStep] at hs
    split_ifs at hs
    · cases hs
      exact h
    · cases hs
  | inner rqK j =>
    simp only [readStep] at hs
    split_ifs at hs <;> cases hs
  | outer j => cases hs
  | done => cases hs

/-- The log has the requests of the call in order. -/
structure LogInv (sb : Superblock numBlocks) (a : Io) (l : ReadLog) : Prop where
  below : ∀ n < l.reqs.length, n * a.blksz < a.ioLen
  reqs : l.reqs = (List.range l.reqs.length).map fun n => a.requestAt sb (n * a.blksz)

theorem LogInv.get (h : LogInv sb a l) {r : Request} (hr : l.reqs[n]? = some r) :
    n * a.blksz < a.ioLen ∧ r = a.requestAt sb (n * a.blksz) := by
  have hn := (List.getElem?_eq_some_iff.mp hr).1
  refine ⟨h.below n hn, ?_⟩
  rw [h.reqs, List.getElem?_map, List.getElem?_range hn] at hr
  exact (Option.some.inj hr).symm

/-- One more request. -/
theorem LogInv.snoc (h : LogInv sb a l) (hlt : l.reqs.length * a.blksz < a.ioLen) (index : ℕ → ℕ)
    (waited : List ℕ) :
    LogInv sb a ⟨l.reqs ++ [a.requestAt sb (l.reqs.length * a.blksz)], index, waited⟩ := by
  refine ⟨fun n hn => ?_, ?_⟩
  · rw [List.length_append, List.length_singleton] at hn
    by_cases he : n = l.reqs.length
    · exact he ▸ hlt
    · exact h.below n (by omega)
  · dsimp only
    rw [List.length_append, List.length_singleton, List.range_succ, List.map_append, ← h.reqs]
    rfl

/-- The requests of a call tile what they cover of its range. -/
theorem tiles_requests (sb : Superblock numBlocks) (a : Io) :
    ∀ n, (∀ k < n, k * a.blksz < a.ioLen) →
      Tiles (((List.range n).map fun k => a.requestAt sb (k * a.blksz)).map a.range) a.pos
        (a.pos + min (n * a.blksz) a.ioLen) := by
  intro n
  induction n with
  | zero =>
    intro _
    rw [Nat.zero_mul, Nat.zero_min]
    rfl
  | succ n ih =>
    intro hlt
    have hn := hlt n (Nat.lt_succ_self n)
    have hold := ih fun k hk => hlt k (Nat.lt_succ_of_lt hk)
    rw [min_eq_left hn.le] at hold
    have hrange : a.range (a.requestAt sb (n * a.blksz)) =
        (a.pos + n * a.blksz, reqLen a.blksz a.ioLen (n * a.blksz)) :=
      congrArg (fun j => (a.pos + j, _)) (Nat.add_sub_cancel_left a.buf (n * a.blksz))
    have hend : a.pos + n * a.blksz + reqLen a.blksz a.ioLen (n * a.blksz) =
        a.pos + min ((n + 1) * a.blksz) a.ioLen := by
      rw [reqLen_eq_min, Nat.succ_mul]
      omega
    rw [List.range_succ, List.map_append, List.map_append, ← hend]
    simp only [List.map_singleton, hrange]
    exact hold.snoc _

theorem LogInv.tiles (h : LogInv sb a l) :
    Tiles (l.reqs.map a.range) a.pos (a.pos + min (l.reqs.length * a.blksz) a.ioLen) := by
  rw [h.reqs, List.length_map, List.length_range]
  exact tiles_requests sb a _ h.below

end Log

/-! ### The invariant -/

/-- What a call in progress has called, and for which request. -/
def Io.AtCall (c : IoConfig) (sb : Superblock numBlocks) (a : Io) (S : Driver) (io : Io) : Prop :=
  match io.call with
  | .loop => True
  | .request did rqK back => did < c.nvme.nd ∧ ∃ j, io.loop c = (back, some (.request rqK j)) ∧
    did = reqDid c.nvme.nd (a.requestAt sb j).lba ∧
      (S.queue did io.core).pc.serves = some (a.requestAt sb j)
  | .test _ k back | .poll k back => io.loop c = (back, some (.check k))

/-- `rid` is what request `r` of the call returned. -/
def RidOf (c : IoConfig) (core : ℕ) (base : ℕ → ℕ → ℕ) (S : Driver) (r : Request) (rid : ℤ) : Prop :=
  ∃ did < c.nvme.nd, did = reqDid c.nvme.nd r.lba ∧ ∃ i < (S.queue did core).issued, base did core ≤ i ∧
    ((S.queue did core).cmd i).req = r ∧ rid = ridOf c.nvme did core ((S.queue did core).cmd i).cid

/-- The arguments of the call, which it does not change. -/
structure Io.Same (a io : Io) : Prop where
  write : io.write = a.write
  core : io.core = a.core
  hookfd : io.hookfd = a.hookfd
  pos : io.pos = a.pos
  buf : io.buf = a.buf
  ioLen : io.ioLen = a.ioLen

/-- The call `a` is in progress at `io`. -/
structure Underway (c : IoConfig) (s₀ : System) (a : Io) (base : ℕ → ℕ → ℕ) (s : System) (l : ReadLog)
    (io : Io) : Prop where
  same : a.Same io
  place : AtRequest l.reqs.length a.blksz a.ioLen io.pc
  blocks : ∀ b < (s₀.fs.sb.file a.hookfd).nBlock,
    (s.fs.sb.file a.hookfd).block b = (s₀.fs.sb.file a.hookfd).block b
  call : Io.AtCall c s₀.fs.sb a s.driver io
  rids : ∀ k, Awaited io.pc k → ∃ r, l.reqs[l.index k]? = some r ∧ RidOf c a.core base s.driver r (io.rid k)
  waits : ∀ n < l.reqs.length, n ∈ l.waited ∨ ∃ k, Awaited io.pc k ∧ l.index k = n

/-- What the queues and memory hold for the call. -/
structure Serving (c : IoConfig) (s₀ : System) (a : Io) (v : Reserve) (base : ℕ → ℕ → ℕ) (S : Driver)
    (l : ReadLog) : Prop where
  driver : DriverInv c.nvme S
  shared : SharedQueues c.nvme v (wish c s₀ a) s₀.driver.disk base S
  beyond : ∀ x, v.own x → (x < a.buf ∨ a.buf + a.ioLen ≤ x) → S.user x = wish c s₀ a x
  brought : ∀ n ∈ l.waited, ∃ r, l.reqs[n]? = some r ∧ Agree S.user r.buf (wish c s₀ a) r.buf r.len

/-- Invariant of a call among others. -/
structure DeliverInv (c : IoConfig) (s₀ : System) (a : Io) (v : Reserve) (base : ℕ → ℕ → ℕ) (p : Logged) :
    Prop where
  serving : Serving c s₀ a v base p.system.driver p.log
  log : LogInv s₀.fs.sb a p.log
  underway : ∀ io, p.system.io = some io → Underway c s₀ a base p.system p.log io
  returned : p.system.io = none → a.ioLen ≤ p.log.reqs.length * a.blksz ∧
    ∀ n < p.log.reqs.length, n ∈ p.log.waited

section Serving

variable {c : IoConfig} {s₀ : System} {a : Io} {v : Reserve} {base : ℕ → ℕ → ℕ} {S : Driver} {l : ReadLog}

/-- Memory of the call changes only to what it is to be. -/
theorem Serving.of_toward (h : Serving c s₀ a v base S l) (hcall : ReadCall c s₀ a v)
    (hlog : LogInv s₀.fs.sb a l) {S' : Driver} (hinv : DriverInv c.nvme S')
    (hshared : SharedQueues c.nvme v (wish c s₀ a) s₀.driver.disk base S')
    (hu : OwnToward v (wish c s₀ a) S.user S'.user) : Serving c s₀ a v base S' l := by
  refine ⟨hinv, hshared, fun x hx hout => hu.keep hx (h.beyond x hx hout), fun n hn => ?_⟩
  obtain ⟨r, hr, hagree⟩ := h.brought n hn
  obtain ⟨hlt, rfl⟩ := hlog.get hr
  have hours : Ours (c.nvme.qp _ 0) v (wish c s₀ a) s₀.driver.disk _ _ :=
    hcall.ours (Nat.dvd_mul_left _ _) hlt rfl
  exact ⟨_, hr, hu.agree hours hagree⟩

/-- A request of the call whose doorbell is not rung yet is a command from `base` on. -/
theorem Serving.base_le (h : Serving c s₀ a v base S l) (hcall : ReadCall c s₀ a v) {j did core cid : ℕ}
    (hdvd : a.blksz ∣ j) (hlt : j < a.ioLen) (hd : did < c.nvme.nd) (hk : core < c.nvme.nCore)
    (hdid : did = reqDid c.nvme.nd (a.requestAt s₀.fs.sb j).lba)
    (hbell : (S.queue did core).pc = .doorbell (a.requestAt s₀.fs.sb j) cid) :
    base did core ≤ (S.queue did core).issued - 1 := by
  obtain ⟨hi, hlast⟩ := (h.driver did hd core hk).ringing hbell
  have hknown := (h.shared did hd core hk).traffic.known _ hi (by
    change ((S.queue did core).cmd _).stage ≠ _
    rw [hlast]
    simp)
  change Foreign _ v did ((S.queue did core).cmd _).req ∨ _ ∨ ((S.queue did core).cmd _).Landed at hknown
  rw [hlast] at hknown
  rcases hknown with hf | ⟨hb, -⟩ | ⟨-, hm⟩
  · have hf : Foreign (c.nvme.qp did core) v did (a.requestAt s₀.fs.sb j) := hf
    exact absurd (hcall.ours hdvd hlt hdid) (hf.not_ours (hcall.requestAt_len_pos hlt))
  · exact hb
  · exact hm.elim

/-- A step of any ULT or drive. -/
theorem Serving.next (h : Serving c s₀ a v base S l) (hcall : ReadCall c s₀ a v)
    (hlog : LogInv s₀.fs.sb a l) (hv : c.Valid) {o : DriverStep} (hA : o.Admissible c.nvme S)
    (hr : ∀ r, o.on = .request r →
      Foreign (c.nvme.qp (o.did c.nvme) (o.core c.nvme)) v (o.did c.nvme) r ∨
        Ours (c.nvme.qp (o.did c.nvme) (o.core c.nvme)) v (wish c s₀ a) s₀.driver.disk (o.did c.nvme) r) :
    Serving c s₀ a v base (o.next c.nvme S) l := by
  obtain ⟨hshared, hu⟩ := h.shared.next h.driver hv.nvme hv.addressed hA hr
  exact h.of_toward hcall hlog (h.driver.next hv.nvme hA) hshared hu

theorem RidOf.next {core : ℕ} {r : Request} {rid : ℤ} (h : RidOf c core base S r rid)
    (hlt : core < c.nvme.nCore) (hinv : DriverInv c.nvme S) {o : DriverStep}
    (hA : o.Admissible c.nvme S) : RidOf c core base (o.next c.nvme S) r rid := by
  obtain ⟨did, hd, hdid, i, hi, hb, hreq, hrid⟩ := h
  have hkeep := hinv.keeps hA hd hlt
  refine ⟨did, hd, hdid, i, lt_of_lt_of_le hi hkeep.issued, hb, (hkeep.req i hi).trans hreq, ?_⟩
  rw [hkeep.cid i hi]
  exact hrid

/-- `nvme_check` looks at the request's own slot. -/
theorem RidOf.decode {core : ℕ} {r : Request} {rid : ℤ} (h : RidOf c core base S r rid) (hv : c.Valid)
    (hlt : core < c.nvme.nCore) (hinv : DriverInv c.nvme S) :
    0 ≤ rid ∧ ridDid c.nvme rid < c.nvme.nd ∧ ridCore c.nvme rid = core := by
  obtain ⟨did, hd, -, i, hi, -, -, hrid⟩ := h
  have hcid := (hinv did hd core hlt).slots.cid_lt i hi
  obtain ⟨hdid, hcore, -⟩ := rid_decode hv.fits hd hlt hcid
  rw [hrid]
  refine ⟨?_, hdid.symm ▸ hd, hcore⟩
  rw [ridOf_eq hv.fits hd hlt hcid]
  exact Int.natCast_nonneg _

/-- When `nvme_check` returns 1 the data of the request is in memory. -/
theorem RidOf.brought {n : ℕ} {r : Request} {rid : ℤ} (h : RidOf c a.core base S r rid) (hv : c.Valid)
    (hcall : ReadCall c s₀ a v) (hs : Serving c s₀ a v base S l) (hlog : LogInv s₀.fs.sb a l)
    (hr : l.reqs[n]? = some r) (hdone : nvmeDone c.nvme S rid) :
    Agree S.user r.buf (wish c s₀ a) r.buf r.len := by
  obtain ⟨did, hd, hdid, i, hi, hb, hreq, hrid⟩ := h
  rw [hrid] at hdone
  have hcons := consumed_of_done hs.driver hv.fits hd hcall.core_lt hi hdone
  obtain ⟨hlt, hrn⟩ := hlog.get hr
  have hours : Ours (c.nvme.qp did a.core) v (wish c s₀ a) s₀.driver.disk did
      ((S.queue did a.core).cmd i).req := by
    rw [hreq, hrn]
    exact hcall.ours (Nat.dvd_mul_left _ _) hlt (hdid.trans (by rw [hrn]))
  have hbrought := hs.shared.brought hs.driver hd hcall.core_lt hi hb hcons hours
  rwa [hreq] at hbrought

end Serving

section Steps

variable {c : IoConfig} {s₀ : System} {a : Io} {v : Reserve} {base : ℕ → ℕ → ℕ} {p : Logged} {io : Io}
  {back : LoopPc}

theorem Io.Same.blksz (h : a.Same io) : io.blksz = a.blksz := by
  rw [Io.blksz, Io.blksz, h.write, h.pos, h.ioLen]

theorem Underway.loop (h : Underway c s₀ a base p.system p.log io) (hcall : ReadCall c s₀ a v)
    {x : LoopPc × Option LoopAct} (hl : io.loop c = x) :
    readStep c.readDeg a.blksz a.ioLen io.pc = x := by
  have hread := Io.loop_read hl (h.same.write.trans hcall.write)
  rwa [h.same.blksz, h.same.ioLen] at hread

/-- A step of any ULT or drive that leaves the loop where it is. -/
theorem Underway.next (h : Underway c s₀ a base p.system p.log io) (hinv : DriverInv c.nvme p.system.driver)
    (hcall : ReadCall c s₀ a v) {o : DriverStep} (hA : o.Admissible c.nvme p.system.driver) (call : LoopCall)
    (hat : Io.AtCall c s₀.fs.sb a (o.next c.nvme p.system.driver) { io with call := call }) :
    Underway c s₀ a base
      { p.system with driver := o.next c.nvme p.system.driver, io := some { io with call := call } } p.log
      { io with call := call } where
  same := ⟨h.same.write, h.same.core, h.same.hookfd, h.same.pos, h.same.buf, h.same.ioLen⟩
  place := h.place
  blocks := h.blocks
  call := hat
  rids k hk := by
    obtain ⟨r, hr, hrid⟩ := h.rids k hk
    exact ⟨r, hr, hrid.next hcall.core_lt hinv hA⟩
  waits := h.waits

/-- The call goes on at another place. -/
theorem DeliverInv.of_io (hs : Serving c s₀ a v base p.system.driver p.log) (hl : LogInv s₀.fs.sb a p.log)
    (hio : p.system.io = some io) (hu : Underway c s₀ a base p.system p.log io) :
    DeliverInv c s₀ a v base p where
  serving := hs
  log := hl
  underway io' hio' := by
    rw [hio] at hio'
    cases hio'
    exact hu
  returned hnone := by
    rw [hio] at hnone
    cases hnone

/-- A step of the call in a queue. -/
theorem DeliverInv.drive (h : DeliverInv c s₀ a v base p) (hv : c.Valid) (hcall : ReadCall c s₀ a v)
    (hio : p.system.io = some io) {o : DriverStep} (hA : o.Admissible c.nvme p.system.driver)
    (hr : ∀ r, o.on = .request r →
      Foreign (c.nvme.qp (o.did c.nvme) (o.core c.nvme)) v (o.did c.nvme) r ∨
        Ours (c.nvme.qp (o.did c.nvme) (o.core c.nvme)) v (wish c s₀ a) s₀.driver.disk (o.did c.nvme) r)
    (call : LoopCall)
    (hat : Io.AtCall c s₀.fs.sb a (o.next c.nvme p.system.driver) { io with call := call }) :
    DeliverInv c s₀ a v base
      ⟨{ p.system with driver := o.next c.nvme p.system.driver, io := some { io with call := call } },
        p.log⟩ :=
  .of_io (h.serving.next hcall h.log hv hA hr) h.log rfl
    ((h.underway io hio).next h.serving.driver hcall hA call hat)

/-- The call goes to another place of the same function. -/
theorem DeliverInv.setCall (h : DeliverInv c s₀ a v base p) (hio : p.system.io = some io)
    (call : LoopCall) (hat : Io.AtCall c s₀.fs.sb a p.system.driver { io with call := call }) :
    DeliverInv c s₀ a v base ⟨{ p.system with io := some { io with call := call } }, p.log⟩ := by
  have hu := h.underway io hio
  obtain ⟨hwrite, hcore, hfd, hpos, hbuf, hlen⟩ := hu.same
  exact .of_io h.serving h.log rfl
    ⟨⟨hwrite, hcore, hfd, hpos, hbuf, hlen⟩, hu.place, hu.blocks, hat, hu.rids, hu.waits⟩

/-- The loop moves on by itself. -/
theorem DeliverInv.quiet (h : DeliverInv c s₀ a v base p) (hcall : ReadCall c s₀ a v)
    (hio : p.system.io = some io) (hl : io.loop c = (back, none)) :
    DeliverInv c s₀ a v base ⟨{ p.system with io := some (io.resume back) }, p.log⟩ := by
  have hu := h.underway io hio
  have hstep := hu.loop hcall hl
  have hawait := (readStep_quiet hstep).1
  obtain ⟨hwrite, hcore, hfd, hpos, hbuf, hlen⟩ := hu.same
  refine .of_io h.serving h.log rfl ⟨⟨hwrite, hcore, hfd, hpos, hbuf, hlen⟩, hu.place.quiet hstep,
    hu.blocks, trivial, fun k hk => ?_, fun n hn => ?_⟩
  · exact hu.rids k ((hawait k).mpr hk)
  · exact (hu.waits n hn).imp_right fun ⟨k, hk, hn⟩ => ⟨k, (hawait k).mp hk, hn⟩

/-- `read_impl` returns. -/
theorem DeliverInv.return_ (h : DeliverInv c s₀ a v base p) (hio : p.system.io = some io)
    (hpc : io.pc = .done) (fs : Fs numBlocks) :
    DeliverInv c s₀ a v base ⟨{ p.system with fs := fs, io := none }, p.log⟩ := by
  have hu := h.underway io hio
  have hplace := hu.place
  rw [hpc] at hplace
  refine ⟨h.serving, h.log, nofun, fun _ => ⟨hplace, fun n hn => ?_⟩⟩
  refine (hu.waits n hn).resolve_right ?_
  rintro ⟨k, hk, -⟩
  rw [hpc] at hk
  exact hk

/-- The address that `myfs_get_lba` returns to the call. -/
theorem Underway.getLba (h : Underway c s₀ a base p.system p.log io) (hcall : ReadCall c s₀ a v) {j : ℕ}
    (hlt : j < a.ioLen) : myfsGetLba p.system.fs.sb a.hookfd ((a.pos + j) % 2 ^ 64) false =
      some (p.system.fs.sb, some (a.requestAt s₀.fs.sb j).lba) := by
  obtain ⟨hoff, hb, h0, -⟩ := hcall.inBlock hlt
  have hblock := h.blocks _ hb
  have hm : Mapped p.system.fs.sb a.hookfd (a.pos + j) := by
    refine ⟨hcall.file.lt, hoff, ?_⟩
    rw [hblock]
    intro hne
    rw [hne] at h0
    exact absurd h0 (by decide)
  rw [offset_mod hoff, getLba_of_mapped hm, hblock]
  rfl

/-- The call of `nvme_read_req`. -/
theorem DeliverInv.request (h : DeliverInv c s₀ a v base p) (hv : c.Valid) (hcall : ReadCall c s₀ a v)
    (hio : p.system.io = some io) (hat : io.call = .loop) {rqK j : ℕ}
    (hl : io.loop c = (back, some (.request rqK j)))
    (hfree : ∀ q, p.system.takes c = some q → (p.system.driver.queue q.1 q.2).pc = .idle) :
    ∃ s', p.system.request c io rqK j back = .ok s' ∧ DeliverInv c s₀ a v base ⟨s', p.log⟩ := by
  have hu := h.underway io hio
  have hstep := hu.loop hcall hl
  obtain ⟨hpc, hlt, -⟩ := readStep_request hstep
  have hj : j = p.log.reqs.length * a.blksz := by
    have hplace := hu.place
    rwa [hpc] at hplace
  have hdvd : a.blksz ∣ j := hj ▸ Nat.dvd_mul_left _ _
  obtain ⟨-, -, hsize, hint⟩ := hcall.aligned hdvd hlt
  have hget := hu.getLba hcall hlt
  set r := a.requestAt s₀.fs.sb j with hr
  have hd : reqDid c.nvme.nd r.lba < c.nvme.nd := Nat.mod_lt _ hv.nvme.nd_pos
  obtain ⟨hwrite, hcore, hfd, hpos, hbuf, hlen⟩ := hu.same
  set o := DriverStep.nvmeReadReq r.lba (numBlk a.blksz) a.core (reqLen a.blksz a.ioLen j) (a.buf + j)
    with ho
  have hon : o.on = .request r := rfl
  have hget' : myfsGetLba p.system.fs.sb io.hookfd ((io.pos + j) % 2 ^ 64) io.write =
      some (p.system.fs.sb, some r.lba) := by
    rw [hfd, hpos, hwrite, hcall.write, hget]
  have hidle : (p.system.driver.queue (reqDid c.nvme.nd r.lba) a.core).pc = .idle := by
    have hidle := hfree _ (System.takes_request hio hat hl hget')
    rwa [hcore] at hidle
  have hA : o.Admissible c.nvme p.system.driver :=
    ⟨hd, hcall.core_lt, ⟨hidle, ioRequest_fits hsize hcall.buf⟩, nofun⟩
  have hours : ∀ r', o.on = .request r' →
      Foreign (c.nvme.qp (o.did c.nvme) (o.core c.nvme)) v (o.did c.nvme) r' ∨
        Ours (c.nvme.qp (o.did c.nvme) (o.core c.nvme)) v (wish c s₀ a) s₀.driver.disk (o.did c.nvme) r' := by
    intro r' hr'
    cases hr'
    exact .inr (hcall.ours hdvd hlt rfl)
  have hcalled : Io.AtCall c s₀.fs.sb a (o.next c.nvme p.system.driver)
      { io with call := .request (reqDid c.nvme.nd r.lba) rqK back } := by
    refine ⟨hd, j, hl, rfl, ?_⟩
    have hpc := pc_request (c := c) hon p.system.driver
    change ((o.next c.nvme p.system.driver).queue (o.did c.nvme) io.core).pc.serves = _
    rw [hcore]
    exact congrArg HostPc.serves hpc
  refine ⟨_, ?_, h.drive hv hcall hio hA hours _ hcalled⟩
  unfold System.request
  rw [hu.same.blksz, if_pos hint, hfd, hpos, hwrite, hcall.write, hget]
  simp only [Bool.false_eq_true, if_false, hcore, hlen, hbuf, ho]

/-- A request before it is made. -/
theorem Underway.called (h : Underway c s₀ a base p.system p.log io) {did rqK : ℕ}
    (hat : io.call = .request did rqK back) : did < c.nvme.nd ∧ ∃ j,
      io.loop c = (back, some (.request rqK j)) ∧ did = reqDid c.nvme.nd (a.requestAt s₀.fs.sb j).lba ∧
        (p.system.driver.queue did io.core).pc.serves = some (a.requestAt s₀.fs.sb j) := by
  have hcall := h.call
  unfold Io.AtCall at hcall
  rwa [hat] at hcall

/-- What the call waits for. -/
theorem Underway.checked (h : Underway c s₀ a base p.system p.log io) {k : ℕ}
    (hat : (∃ again, io.call = .test again k back) ∨ io.call = .poll k back) :
    io.loop c = (back, some (.check k)) := by
  have hcall := h.call
  unfold Io.AtCall at hcall
  rcases hat with ⟨again, hat⟩ | hat
  · rwa [hat] at hcall
  · rwa [hat] at hcall

/-- The doorbell of a request rings, and `nvme_read_req` returns. -/
theorem DeliverInv.ring (h : DeliverInv c s₀ a v base p) (hv : c.Valid) (hcall : ReadCall c s₀ a v)
    (hio : p.system.io = some io) {did rqK cid : ℕ} {r : Request}
    (hat : io.call = .request did rqK back)
    (hbell : (p.system.driver.queue did io.core).pc = .doorbell r cid) :
    DeliverInv c s₀ a v base
      ⟨{ p.system with
          driver := (DriverStep.host did io.core).next c.nvme p.system.driver
          io := some (io.returned c did rqK cid back) },
        ⟨p.log.reqs ++ [r], Function.update p.log.index rqK p.log.reqs.length, p.log.waited⟩⟩ := by
  have hu := h.underway io hio
  obtain ⟨hd, j, hl, hdid, hserves⟩ := hu.called hat
  obtain ⟨hwrite, hcore, hfd, hpos, hbuf, hlen⟩ := hu.same
  have hstep := hu.loop hcall hl
  obtain ⟨hpc, hlt, hback⟩ := readStep_request hstep
  have hj : j = p.log.reqs.length * a.blksz := by
    have hplace := hu.place
    rwa [hpc] at hplace
  have hr : r = a.requestAt s₀.fs.sb j := by
    rw [hbell] at hserves
    exact Option.some.inj hserves
  have hinv := h.serving.driver
  have hA : (DriverStep.host did io.core).Admissible c.nvme p.system.driver :=
    host_admissible hd (hcore ▸ hcall.core_lt) _
  have hserving := h.serving.next hcall h.log hv hA nofun
  -- the request is the last command of its queue
  obtain ⟨hi, hlast⟩ := (hinv did hd _ (hcore ▸ hcall.core_lt)).ringing hbell
  have hdvd : a.blksz ∣ j := hj ▸ Nat.dvd_mul_left _ _
  have hb := h.serving.base_le hcall hdvd hlt hd (hcore ▸ hcall.core_lt) hdid (hr ▸ hbell)
  have hnew : RidOf c a.core base ((DriverStep.host did io.core).next c.nvme p.system.driver) r
      (ridOf c.nvme did io.core cid) := by
    rw [← hcore]
    refine RidOf.next ⟨did, hd, by rw [hr]; exact hdid, _, hi, hb, ?_, ?_⟩ (hcore ▸ hcall.core_lt) hinv hA
    · rw [hlast]
    · rw [hlast]
  have hlog : LogInv s₀.fs.sb a ⟨p.log.reqs ++ [r],
      Function.update p.log.index rqK p.log.reqs.length, p.log.waited⟩ := by
    rw [hr, hj]
    exact h.log.snoc (hj ▸ hlt) _ _
  have hget : ∀ (n : ℕ) (r' : Request), p.log.reqs[n]? = some r' →
      (p.log.reqs ++ [r])[n]? = some r' := by
    intro n r' hn
    rw [List.getElem?_append_left (List.getElem?_eq_some_iff.mp hn).1]
    exact hn
  refine .of_io ⟨hserving.driver, hserving.shared, hserving.beyond, fun n hn => ?_⟩ hlog rfl
    ⟨⟨hwrite, hcore, hfd, hpos, hbuf, hlen⟩, ?_, hu.blocks, trivial, fun k hk => ?_, fun n hn => ?_⟩
  · obtain ⟨r', hr', hagree⟩ := hserving.brought n hn
    exact ⟨r', hget n r' hr', hagree⟩
  · change AtRequest (p.log.reqs ++ [r]).length a.blksz a.ioLen back
    rw [hback, List.length_append, List.length_singleton]
    change j + a.blksz = (p.log.reqs.length + 1) * a.blksz
    rw [hj, Nat.succ_mul]
  · have hk : Awaited back k := hk
    rw [hback] at hk
    dsimp only [Io.returned, Io.resume]
    by_cases he : k = rqK
    · rw [he, Function.update_self, Function.update_self]
      exact ⟨r, List.getElem?_concat_length, hnew⟩
    · rw [Function.update_of_ne he, Function.update_of_ne he]
      obtain ⟨r', hr', hrid⟩ := hu.rids k (by
        rw [hpc]
        exact lt_of_le_of_ne (Nat.le_of_lt_succ hk) he)
      exact ⟨r', hget _ r' hr', hrid.next hcall.core_lt hinv hA⟩
  · have hn : n < (p.log.reqs ++ [r]).length := hn
    rw [List.length_append, List.length_singleton] at hn
    change n ∈ p.log.waited ∨ ∃ k, Awaited back k ∧
      Function.update p.log.index rqK p.log.reqs.length k = n
    rw [hback]
    by_cases he : n = p.log.reqs.length
    · exact .inr ⟨rqK, Nat.lt_succ_self rqK, by rw [Function.update_self, he]⟩
    · refine (hu.waits n (by omega)).imp_right fun ⟨k, hk, hkn⟩ => ?_
      rw [hpc] at hk
      have hk : k < rqK := hk
      exact ⟨k, Nat.lt_succ_of_lt hk, by rw [Function.update_of_ne hk.ne, hkn]⟩

/-- A step in `nvme_read_req`. -/
theorem DeliverInv.inRequest (h : DeliverInv c s₀ a v base p) (hv : c.Valid) (hcall : ReadCall c s₀ a v)
    (hio : p.system.io = some io) {did rqK : ℕ} (hat : io.call = .request did rqK back) :
    DeliverInv c s₀ a v base ⟨p.system.inRequest c io did rqK back, p.system.log c p.log⟩ := by
  have hlog : p.system.log c p.log =
      match (p.system.driver.queue did io.core).pc with
      | .doorbell r _ =>
        ⟨p.log.reqs ++ [r], Function.update p.log.index rqK p.log.reqs.length, p.log.waited⟩
      | _ => p.log := by
    rw [System.log, hio]
    dsimp only
    rw [hat]
  rw [hlog]
  by_cases hbell : ∃ r cid, (p.system.driver.queue did io.core).pc = .doorbell r cid
  · obtain ⟨r, cid, hbell⟩ := hbell
    rw [inRequest_of_doorbell hbell, hbell]
    exact h.ring hv hcall hio hat hbell
  · push Not at hbell
    have hu := h.underway io hio
    obtain ⟨hd, j, hl, hdid, hserves⟩ := hu.called hat
    have hA := host_admissible (c := c) hd (hu.same.core ▸ hcall.core_lt) p.system.driver
    have hdrive := h.drive hv hcall hio hA nofun io.call (by
      unfold Io.AtCall
      rw [hat]
      exact ⟨hd, j, hl, hdid, (serves_host hbell).trans hserves⟩)
    rw [inRequest_of_ne hbell]
    cases hpc : (p.system.driver.queue did io.core).pc with
    | doorbell r cid => exact absurd hpc (hbell r cid)
    | _ =>
      rw [← hio] at hdrive
      exact hdrive

/-- A test of `done` in `nvme_check`. -/
theorem DeliverInv.test (h : DeliverInv c s₀ a v base p) (hv : c.Valid) (hcall : ReadCall c s₀ a v)
    (hio : p.system.io = some io) {again : Bool} {k : ℕ} (hat : io.call = .test again k back)
    (hfree : ∀ q, p.system.takes c = some q → (p.system.driver.queue q.1 q.2).pc = .idle) :
    ∃ s', p.system.test c io again k back = .ok s' ∧
      DeliverInv c s₀ a v base ⟨s', p.system.log c p.log⟩ := by
  have hu := h.underway io hio
  have hl := hu.checked (.inl ⟨again, hat⟩)
  have hstep := hu.loop hcall hl
  obtain ⟨hawait, hrest, hbackw⟩ := (readStep_check hstep).1
  obtain ⟨r, hr, hrid⟩ := hu.rids k hawait
  obtain ⟨h0, hd, hcore⟩ := hrid.decode hv hcall.core_lt h.serving.driver
  have hlog : p.system.log c p.log = if nvmeDone c.nvme p.system.driver (io.rid k) then
      { p.log with waited := p.log.waited ++ [p.log.index k] } else p.log := by
    rw [System.log, hio]
    dsimp only
    rw [hat]
  unfold System.test
  rw [hlog, if_pos ⟨h0, hd⟩]
  split_ifs with hdone hagain
  · obtain ⟨hwrite, hcore', hfd, hpos, hbuf, hlen⟩ := hu.same
    have hbrought := hrid.brought hv hcall h.serving h.log hr hdone
    refine ⟨_, rfl, .of_io ⟨h.serving.driver, h.serving.shared, h.serving.beyond, fun n hn => ?_⟩
      ⟨h.log.below, h.log.reqs⟩ rfl ⟨⟨hwrite, hcore', hfd, hpos, hbuf, hlen⟩, hu.place.check hstep,
        hu.blocks, trivial, fun k' hk' => hu.rids k' (hbackw k' hk'), fun n hn => ?_⟩⟩
    · rcases List.mem_append.mp hn with hn | hn
      · exact h.serving.brought n hn
      · rw [List.mem_singleton.mp hn]
        exact ⟨r, hr, hbrought⟩
    · rcases hu.waits n hn with hw | ⟨k', hk', hn'⟩
      · exact .inl (List.mem_append_left _ hw)
      · rcases hrest k' hk' with rfl | hk'
        · exact .inl (List.mem_append_right _ (List.mem_singleton.mpr hn'.symm))
        · exact .inr ⟨k', hk', hn'⟩
  · exact ⟨_, rfl, h.setCall hio (.test false k back) hl⟩
  · have hidle := hfree _ (System.takes_check hio hat hdone hagain)
    have hA : (DriverStep.nvmeCheck (io.rid k)).Admissible c.nvme p.system.driver :=
      check_admissible h0 hd (hcore.symm ▸ hcall.core_lt) hidle
    exact ⟨_, rfl, h.drive hv hcall hio hA nofun (.poll k back) hl⟩

/-- A step in the `check_cq` of `nvme_check`. -/
theorem DeliverInv.poll (h : DeliverInv c s₀ a v base p) (hv : c.Valid) (hcall : ReadCall c s₀ a v)
    (hio : p.system.io = some io) {k : ℕ} (hat : io.call = .poll k back) :
    DeliverInv c s₀ a v base ⟨p.system.poll c io k back, p.system.log c p.log⟩ := by
  have hu := h.underway io hio
  have hl := hu.checked (.inr hat)
  obtain ⟨hawait, -, -⟩ := (readStep_check (hu.loop hcall hl)).1
  obtain ⟨r, hr, hrid⟩ := hu.rids k hawait
  obtain ⟨h0, hd, hcore⟩ := hrid.decode hv hcall.core_lt h.serving.driver
  have hlog : p.system.log c p.log = p.log := by
    rw [System.log, hio]
    dsimp only
    rw [hat]
  rw [hlog]
  by_cases hpc : (p.system.driver.queue (ridDid c.nvme (io.rid k)) (ridCore c.nvme (io.rid k))).pc = .idle
  · rw [poll_of_idle hpc]
    exact h.setCall hio (.test true k back) hl
  · rw [poll_of_ne hpc]
    have hA := host_admissible (c := c) hd (hcore.symm ▸ hcall.core_lt) p.system.driver
    have hdrive := h.drive hv hcall hio hA nofun io.call (by
      unfold Io.AtCall
      rw [hat]
      exact hl)
    rw [← hio] at hdrive
    exact hdrive

end Steps

/-! ### Runs -/

section Run

variable {c : IoConfig} {s₀ : System} {a : Io} {v : Reserve} {base : ℕ → ℕ → ℕ} {p : Logged}

/-- The entries of the file's block table that the call uses. -/
def stays (s₀ : System) (a : Io) (i b : ℕ) : Prop := i = a.hookfd ∧ b < (s₀.fs.sb.file a.hookfd).nBlock

/-- The next step of the call. -/
theorem DeliverInv.next (h : DeliverInv c s₀ a v base p) (hv : c.Valid) (hcall : ReadCall c s₀ a v)
    (hfree : ∀ q, p.system.takes c = some q → (p.system.driver.queue q.1 q.2).pc = .idle) :
    ∃ s', p.system.next c = .ok s' ∧ DeliverInv c s₀ a v base ⟨s', p.system.log c p.log⟩ := by
  unfold System.next
  cases hio : p.system.io with
  | none =>
    have hlog : p.system.log c p.log = p.log := by rw [System.log, hio]
    rw [hlog]
    exact ⟨p.system, rfl, h⟩
  | some io =>
    dsimp only
    cases hat : io.call with
    | request did rqK back => exact ⟨_, rfl, h.inRequest hv hcall hio hat⟩
    | poll k back => exact ⟨_, rfl, h.poll hv hcall hio hat⟩
    | test again k back => exact h.test hv hcall hio hat hfree
    | loop =>
      have hlog : p.system.log c p.log = p.log := by
        rw [System.log, hio]
        dsimp only
        rw [hat]
      dsimp only
      rw [hlog]
      unfold System.loop
      by_cases hpc : io.pc = .done
      · rw [if_pos hpc]
        exact ⟨_, rfl, h.return_ hio hpc _⟩
      · rw [if_neg hpc]
        cases hl : io.loop c with
        | mk back act =>
          cases act with
          | none => exact ⟨_, rfl, h.quiet hcall hio hl⟩
          | some act =>
            cases act with
            | request rqK j => exact h.request hv hcall hio hat hl hfree
            | check k => exact ⟨_, rfl, h.setCall hio (.test false k back) hl⟩

/-- A step of another ULT in the driver, or of a drive, leaves the call where it is. -/
theorem Underway.beside {io : Io} (h : Underway c s₀ a base p.system p.log io)
    (hio : p.system.io = some io) {o : DriverStep}
    (hheld : o.IsHost → p.system.holds c ≠ some (o.did c.nvme, o.core c.nvme)) :
    Io.AtCall c s₀.fs.sb a (o.next c.nvme p.system.driver) io := by
  have hcall := h.call
  unfold Io.AtCall at hcall ⊢
  cases hat : io.call with
  | request did rqK back =>
    rw [hat] at hcall
    obtain ⟨hd, j, hl, hdid, hserves⟩ := hcall
    refine ⟨hd, j, hl, hdid, ?_⟩
    rw [← hserves]
    by_cases ho : o.IsHost
    · have hne : ¬ (did = o.did c.nvme ∧ io.core = o.core c.nvme) := by
        rintro ⟨h1, h2⟩
        refine hheld ho ?_
        rw [System.holds, hio]
        dsimp only
        rw [hat, h1, h2]
      rw [queue_next_of_ne c.nvme o _ hne]
    · exact congrArg HostPc.serves (pc_next ho did io.core)
  | _ =>
    rw [hat] at hcall
    exact hcall

theorem DeliverInv.driver (h : DeliverInv c s₀ a v base p) (hv : c.Valid) (hcall : ReadCall c s₀ a v)
    {o : DriverStep} (hA : (Turn.driver o).Admissible c v (stays s₀ a) p.system) :
    DeliverInv c s₀ a v base ⟨{ p.system with driver := o.next c.nvme p.system.driver }, p.log⟩ := by
  obtain ⟨hA, hheld, hforeign⟩ := hA
  refine ⟨h.serving.next hcall h.log hv hA fun r hr => .inl (hforeign r hr), h.log, fun io hio => ?_,
    h.returned⟩
  have hu := h.underway io hio
  have hnext := hu.next h.serving.driver hcall hA io.call (hu.beside hio hheld)
  have hio : p.system.io = some io := hio
  rw [← hio] at hnext
  exact hnext

/-- What other ULTs do to the file system. -/
theorem DeliverInv.files (h : DeliverInv c s₀ a v base p) {fs : Fs numBlocks}
    (hA : (Turn.files fs).Admissible c v (stays s₀ a) p.system) :
    DeliverInv c s₀ a v base ⟨{ p.system with fs := fs }, p.log⟩ := by
  refine ⟨h.serving, h.log, fun io hio => ?_, h.returned⟩
  have hu := h.underway io hio
  exact ⟨hu.same, hu.place, fun b hb => (hA a.hookfd b ⟨rfl, hb⟩).trans (hu.blocks b hb), hu.call, hu.rids,
    hu.waits⟩

/-- What other ULTs do to memory. -/
theorem DeliverInv.store (h : DeliverInv c s₀ a v base p) (hcall : ReadCall c s₀ a v) {user : ℕ → Byte}
    (hA : (Turn.store user).Admissible c v (stays s₀ a) p.system) :
    DeliverInv c s₀ a v base
      ⟨{ p.system with driver := { p.system.driver with user := user } }, p.log⟩ := by
  refine ⟨h.serving.of_toward hcall h.log h.serving.driver (h.serving.shared.store hA)
    fun x hx => .inl (hA x hx), h.log, fun io hio => ?_, h.returned⟩
  have hu := h.underway io hio
  exact ⟨hu.same, hu.place, hu.blocks, hu.call, hu.rids, hu.waits⟩

theorem DeliverInv.step (hv : c.Valid) (hcall : ReadCall c s₀ a v) (o : Turn) (p : Logged)
    (h : DeliverInv c s₀ a v base p) (hA : o.Admissible c v (stays s₀ a) p.system) :
    ∃ p', o.logged c p = .ok p' ∧ DeliverInv c s₀ a v base p' := by
  cases o with
  | next =>
    obtain ⟨s', hs, h'⟩ := h.next hv hcall hA
    exact ⟨_, congrArg (Outcome.map _) hs, h'⟩
  | driver o => exact ⟨_, rfl, h.driver hv hcall hA⟩
  | files fs => exact ⟨_, rfl, h.files hA⟩
  | store user => exact ⟨_, rfl, h.store hcall hA⟩

/-- What the invariant says of what was delivered. -/
theorem DeliverInv.delivers (h : DeliverInv c s₀ a v base p) (hcall : ReadCall c s₀ a v) (hv : c.Valid) :
    Delivers c s₀ a v.own p := by
  have htiles := h.log.tiles
  refine ⟨fun r hr => ?_, ⟨_, min_le_right _ _, htiles⟩, fun x hx hout => ?_, fun hnone => ?_,
    fun hnone => (h.returned hnone).2, fun hnone k hk => ?_⟩
  · obtain ⟨n, hn⟩ := List.mem_iff_getElem?.mp hr
    obtain ⟨hlt, rfl⟩ := h.log.get hn
    exact hcall.inOneChunk (Nat.dvd_mul_left _ _) hlt
  · exact (h.serving.beyond x hx hout).trans (wish_outside hout)
  · rwa [min_eq_right (h.returned hnone).1] at htiles
  · obtain ⟨hle, hwaited⟩ := h.returned hnone
    -- the request that the byte is part of
    have hpos := hcall.blksz_pos hk
    have hj : k / a.blksz * a.blksz ≤ k := Nat.div_mul_le_self k a.blksz
    have hlt : k - k / a.blksz * a.blksz < a.blksz := by
      rw [← Nat.mod_eq_sub_div_mul]
      exact Nat.mod_lt k hpos
    have hn : k / a.blksz < p.log.reqs.length :=
      (Nat.div_lt_iff_lt_mul hpos).mpr (lt_of_lt_of_le hk hle)
    obtain ⟨r, hr, hagree⟩ := h.serving.brought _ (hwaited _ hn)
    obtain ⟨-, rfl⟩ := h.log.get hr
    have hbyte := hagree (k - k / a.blksz * a.blksz) (lt_reqLen hlt (by omega))
    have haddr : (a.requestAt s₀.fs.sb (k / a.blksz * a.blksz)).buf + (k - k / a.blksz * a.blksz) =
        a.buf + k := by
      change a.buf + k / a.blksz * a.blksz + _ = _
      omega
    rw [haddr, wish_at hk] at hbyte
    rw [hbyte]
    -- nobody has written the byte of the drive
    have hd : (byteAddr c.nvme.nd s₀.fs.sb a.hookfd (a.pos + k)).1 < c.nvme.nd :=
      Nat.mod_lt _ hv.nvme.nd_pos
    refine ((h.serving.shared _ hd _ hcall.core_lt).kept _ ?_).symm
    rw [hcall.kept]
    exact ⟨k, hk, rfl⟩

/-- A call begins. -/
theorem DeliverInv.start (hinv : DriverInv c.nvme s₀.driver)
    (hothers : Others c.nvme v s₀.driver) (hpc : a.pc = .outer 0) (hat : a.call = .loop) {fs : Fs numBlocks}
    (hfs : fs.sb = s₀.fs.sb) :
    DeliverInv c s₀ a v (fun did core => (s₀.driver.queue did core).issued)
      ⟨{ s₀ with fs := fs, io := some a }, .empty⟩ := by
  have hserving : Serving c s₀ a v (fun did core => (s₀.driver.queue did core).issued) s₀.driver .empty :=
    ⟨hinv, hothers.shared hinv _, fun x _ hout => (wish_outside hout).symm,
      fun n hn => absurd hn List.not_mem_nil⟩
  refine .of_io hserving ⟨fun n hn => absurd hn (Nat.not_lt_zero n), rfl⟩ rfl
    ⟨⟨rfl, rfl, rfl, rfl, rfl, rfl⟩, ?_, fun b _ => ?_, ?_, fun k hk => ?_,
      fun n hn => absurd hn (Nat.not_lt_zero n)⟩
  · rw [hpc]
    exact (Nat.zero_mul _).symm
  · dsimp only
    rw [hfs]
  · unfold Io.AtCall
    rw [hat]
    trivial
  · rw [hpc] at hk
    exact hk.elim

/-- What the other ULTs leave alone during the call: the memory `own`, and the bytes of the drives
that the call reads. -/
def Io.reserve (c : IoConfig) (s : System) (a : Io) (own : ℕ → Prop) : Reserve :=
  ⟨own, rangeAt c.nvme.nd s.fs.sb a.hookfd a.pos a.ioLen⟩

/-- The call of `read_impl` where its loop begins. -/
def System.readIo (core hookfd len pos buf : ℕ) (s : System) : Io :=
  ⟨false, core, hookfd, len, pos, buf, readLen (myfsGetSize s.fs.sb hookfd) pos len, fun _ => 0, .outer 0,
    .loop⟩

theorem readLen_eq_min (size pos len : ℕ) : readLen size pos len = min len (size - pos) := by
  unfold readLen
  split_ifs <;> omega

/-- What other ULTs and the drives do keeps the invariant of the driver. -/
theorem turn_driver {stays : ℕ → ℕ → Prop} (hv : c.Valid) (o : Turn) (s s' : System)
    (h : DriverInv c.nvme s.driver ∧ s.io = none) (hA : o.Admissible c v stays s)
    (hs : o.step c s = .ok s') : DriverInv c.nvme s'.driver ∧ s'.io = none := by
  obtain ⟨hinv, hio⟩ := h
  cases o with
  | next =>
    rw [Turn.step, System.next, hio] at hs
    cases hs
    exact ⟨hinv, hio⟩
  | driver o =>
    cases hs
    exact ⟨hinv.next hv.nvme hA.1, hio⟩
  | files fs =>
    cases hs
    exact ⟨hinv, hio⟩
  | store user =>
    cases hs
    exact ⟨hinv, hio⟩

/-- `read_impl` delivers the part of its range that lies in the file, whatever was done before it, and
whatever others do meanwhile who leave its memory and the bytes it reads alone. -/
theorem read_impl_delivers (hv : c.Valid) {sb : Superblock numBlocks} {disk : ℕ → ℕ → Byte}
    {user : ℕ → Byte} {before : List Turn} {s : System}
    (hbefore : Meets (Turn.step c) (Turn.Admissible c Reserve.nothing fun _ _ => False) before
      (System.start c sb disk user))
    (hs : run (Turn.step c) before (System.start c sb disk user) = .ok s)
    {core hookfd len pos buf : ℕ} (hcore : core < c.nvme.nCore) (hfile : FileMapped s.fs.sb hookfd)
    (hpos : pos % 512 = 0) (hbuf : buf ≠ 0) {a : Io} (ha : a = s.readIo core hookfd len pos buf)
    (hlen : a.ioLen < 2 ^ 31 - 4096) {own : ℕ → Prop} (hown : ∀ k < a.ioLen, own (buf + k))
    (hothers : Others c.nvme (a.reserve c s own) s.driver) :
    a.ioLen = min len ((s.fs.sb.file hookfd).nBlock * blockSize - pos) ∧
      ∃ s', s.readImpl core hookfd len pos buf = .ok s' ∧ ∀ turns : List Turn,
        Meets (Turn.logged c) (fun o p => o.Admissible c (a.reserve c s own) (stays s a) p.system) turns
            ⟨s', .empty⟩ →
          (∃ p, run (Turn.logged c) turns ⟨s', .empty⟩ = .ok p) ∧
            Always (Turn.logged c) (Delivers c s a own) turns ⟨s', .empty⟩ := by
  have hsize := getSize_of_le hfile.nBlock_le
  have hioLen : a.ioLen = readLen ((s.fs.sb.file hookfd).nBlock * blockSize) pos len := by
    rw [ha, System.readIo, hsize]
  obtain ⟨hinv, -⟩ := run_inv_of_meets (turn_driver hv)
    ⟨inv_nvmeInit hv.nvme disk user, rfl⟩ hbefore hs
  have hcall : ReadCall c s a (a.reserve c s own) := by
    refine ⟨?_, ?_, ?_, ?_, ?_, fun j hj => ?_, hlen, fun k hk => ?_, rfl⟩
    · rw [ha]
      exact hcore
    · rw [ha]
      rfl
    · rw [ha]
      exact hfile
    · rw [ha]
      exact hpos
    · rw [ha]
      exact hbuf
    · rw [hioLen] at hj
      have hlt := lt_of_readLen hj
      rw [ha]
      exact hlt
    · have hk' := hown k hk
      rw [ha]
      exact hk'
  have hfs := incrementRef_sb s.fs hookfd
  have hstart := DeliverInv.start (a := a) hinv hothers (by rw [ha]; rfl) (by rw [ha]; rfl) hfs
  refine ⟨hioLen.trans (readLen_eq_min _ _ _),
    { s with fs := (myfsIncrementRef s.fs hookfd).1, io := some a }, ?_, fun turns hA => ?_⟩
  · rw [System.readImpl]
    dsimp only
    rw [if_pos hpos, hfs, ha, System.readIo]
  · refine ⟨exists_run_of_meets (DeliverInv.step hv hcall) hstart hA, always_of_meets
      (fun p h => h.delivers hcall hv) (fun o p h hA => ?_) hstart hA⟩
    obtain ⟨p', hp, h'⟩ := DeliverInv.step hv hcall o p h hA
    rw [hp]
    exact h'

end Run

/-! ### Examples -/

/-- A read of another ULT into memory from 30000 on. -/
def Request.Aside (r : Request) : Prop :=
  r.write = false ∧ 30000 ≤ r.buf ∧ 1 ≤ r.numBlk ∧ r.numBlk * 512 ≤ Nvme.blksz ∧ r.len ≤ r.numBlk * 512

instance decidableAside : DecidablePred Request.Aside := fun _ =>
  inferInstanceAs (Decidable (_ ∧ _ ∧ _ ∧ _ ∧ _))

theorem Request.Aside.foreign {r : Request} (h : Request.Aside r) {d : QpConfig} {v : Reserve}
    (hown : ∀ x, v.own x → x < 30000) (did : ℕ) : Foreign d v did r := by
  obtain ⟨hread, hbuf, hpos, hle, hlen⟩ := h
  refine ⟨⟨hpos, hle, hlen⟩, fun _ k _ hk => ?_, fun hwrite => ?_⟩
  · have hx := hown _ hk
    omega
  · rw [hread] at hwrite
    cases hwrite

/-- The request that a step of a queue makes. -/
def asks : QueueStep → Option Request
  | .request r => some r
  | _ => none

/-- `Admissible`, for requests that are `Aside`. -/
def Turn.Plain (c : IoConfig) : Turn → System → Prop
  | .next, s => ∀ q ∈ s.takes c, (s.driver.queue q.1 q.2).pc = .idle
  | .driver o, s => o.Admissible c.nvme s.driver ∧
    (o.IsHost → s.holds c ≠ some (o.did c.nvme, o.core c.nvme)) ∧ ∀ r ∈ asks o.on, Request.Aside r
  | .files _, _ | .store _, _ => False

instance decidableIsHost : DecidablePred DriverStep.IsHost
  | .exec .. | .post .. => isFalse id
  | .nvmeReadReq .. | .nvmeWriteReq .. | .nvmeCheck _ | .host .. => isTrue trivial

instance decidablePlain (c : IoConfig) : ∀ (o : Turn) (s : System), Decidable (o.Plain c s)
  | .next, s => inferInstanceAs (Decidable (∀ q ∈ s.takes c, (s.driver.queue q.1 q.2).pc = .idle))
  | .driver _, _ => inferInstanceAs (Decidable (_ ∧ _ ∧ _))
  | .files _, _ | .store _, _ => isFalse id

theorem Turn.Plain.admissible {c : IoConfig} {v : Reserve} (hown : ∀ x, v.own x → x < 30000)
    {stays : ℕ → ℕ → Prop} {o : Turn} {s : System} (h : o.Plain c s) : o.Admissible c v stays s := by
  cases o with
  | next => exact fun q hq => h q hq
  | driver o =>
    refine ⟨h.1, h.2.1, fun r hr => (h.2.2 r ?_).foreign hown _⟩
    rw [hr]
    rfl
  | files fs => exact h.elim
  | store user => exact h.elim

/-- Runs that can be checked by computation. -/
theorem meets_of_plain {c : IoConfig} {v : Reserve} (hown : ∀ x, v.own x → x < 30000)
    {stays : ℕ → ℕ → Prop} {turns : List Turn} {p : Logged}
    (h : Meets (Turn.logged c) (fun o p => o.Plain c p.system) turns p) :
    Meets (Turn.logged c) (fun o p => o.Admissible c v stays p.system) turns p :=
  Meets.of_inv (I := fun _ => True) (fun _ _ _ h => h.admissible hown)
    (fun _ _ _ _ => Outcome.After.of_forall (fun _ => trivial) _) trivial h

theorem others_start {c : IoConfig} {v : Reserve} (sb : Superblock numBlocks) (disk : ℕ → ℕ → Byte)
    (user : ℕ → Byte) : Others c.nvme v (System.start c sb disk user).driver :=
  ⟨fun _ _ _ _ _ hr => (nomatch hr), fun _ _ _ _ _ hi => absurd hi (Nat.not_lt_zero _)⟩

/-- One file of one block. -/
def oneBlock (b : ℤ) : Superblock numBlocks where
  magic := myfsMagic
  free := usedRing
  file i := if i = 0 then ⟨nameA, Function.update emptyTable 0 b, 1⟩ else ⟨CString.empty, emptyTable, 0⟩

theorem mount_oneBlock (b : ℤ) : (myfsMount (oneBlock b)).sb = oneBlock b := by
  simp [myfsMount, oneBlock]

theorem fileMapped_oneBlock {b : ℤ} (hb : 0 ≤ b ∧ b < numBlocks) (c : IoConfig) (disk : ℕ → ℕ → Byte)
    (user : ℕ → Byte) : FileMapped (System.start c (oneBlock b) disk user).fs.sb 0 := by
  have hsb : (System.start c (oneBlock b) disk user).fs.sb = oneBlock b := mount_oneBlock b
  rw [hsb]
  refine ⟨maxFiles_pos, ?_, fun i hi => ?_⟩
  · simp [oneBlock, maxBlocksPerFile]
  · have hi : i = 0 := Nat.lt_one_iff.mp hi
    simpa [hi, oneBlock] using hb

/-- Drive 0 has threes, the others have fives. -/
def threesFives (did _ : ℕ) : Byte := if did = 0 then 3 else 5

/-- A file on two drives. -/
def onTwoDrives : System := System.start (oneCore 2) (oneBlock 1) threesFives fun _ => 0

/-- One ULT reads from both drives, and another one from drive 1; the drives answer out of order. -/
def mixedTurns : List Turn :=
  .driver (.nvmeReadReq 24 1 0 512 40000) :: List.replicate 3 (.driver (.host 1 0)) ++
    List.replicate 13 .next ++ [.driver (.exec 1 0 2), .driver (.post 1 0 2 plainCqe),
      .driver (.exec 0 0 0), .driver (.exec 1 0 0), .driver (.exec 1 0 1),
      .driver (.post 1 0 1 plainCqe), .driver (.post 0 0 0 plainCqe), .driver (.post 1 0 0 plainCqe)] ++
    List.replicate 40 .next

/-- 1124 bytes that end in the middle of a sector, from two drives. -/
theorem read_impl_delivers_mixed : ∃ s' p, onTwoDrives.readImpl 0 0 1124 3584 20000 = .ok s' ∧
    run (Turn.logged (oneCore 2)) mixedTurns ⟨s', .empty⟩ = .ok p ∧ p.system.io = none ∧
      p.log.reqs.length = 3 ∧ p.system.driver.user 20511 = 3 ∧ p.system.driver.user 21123 = 5 ∧
        Delivers (oneCore 2) onTwoDrives (onTwoDrives.readIo 0 0 1124 3584 20000) (fun x => x < 30000)
          p := by
  have hv : (oneCore 2).Valid := ⟨oneCore_valid (by decide), oneCore_addressed 2, by decide⟩
  have hlen : (onTwoDrives.readIo 0 0 1124 3584 20000).ioLen = 1124 := by decide +kernel
  have hrun : ∃ s', onTwoDrives.readImpl 0 0 1124 3584 20000 = .ok s' ∧
      (Meets (Turn.logged (oneCore 2)) (fun o p => o.Plain (oneCore 2) p.system) mixedTurns ⟨s', .empty⟩ ∧
        ∃ p, run (Turn.logged (oneCore 2)) mixedTurns ⟨s', .empty⟩ = .ok p ∧ p.system.io.isNone ∧
          p.log.reqs.length = 3 ∧ p.system.driver.user 20511 = 3 ∧ p.system.driver.user 21123 = 5) := by
    decide +kernel
  obtain ⟨s', hs', hplain, p, hp, hio, hreqs, hthree, hfive⟩ := hrun
  have hlt : (onTwoDrives.readIo 0 0 1124 3584 20000).ioLen < 2 ^ 31 - 4096 := by
    rw [hlen]
    decide
  have hown : ∀ k < (onTwoDrives.readIo 0 0 1124 3584 20000).ioLen,
      (fun x => x < 30000) (20000 + k) := by
    rw [hlen]
    intro k hk
    omega
  have hbefore : Meets (Turn.step (oneCore 2))
      (Turn.Admissible (oneCore 2) Reserve.nothing fun _ _ => False) [] onTwoDrives := trivial
  have hnone : run (Turn.step (oneCore 2)) [] onTwoDrives = .ok onTwoDrives := rfl
  have hfile : FileMapped onTwoDrives.fs.sb 0 := fileMapped_oneBlock (by simp [numBlocks]) _ _ _
  have hothers : Others (oneCore 2).nvme ((onTwoDrives.readIo 0 0 1124 3584 20000).reserve (oneCore 2)
      onTwoDrives fun x => x < 30000) onTwoDrives.driver := others_start _ _ _
  obtain ⟨-, s, hs, hall⟩ := read_impl_delivers hv hbefore hnone
    (show 0 < (oneCore 2).nvme.nCore by decide) hfile (show 3584 % 512 = 0 by decide) (show 20000 ≠ 0 by decide) rfl hlt hown hothers
  rw [hs'] at hs
  cases hs
  exact ⟨s', p, hs', hp, Option.isNone_iff_eq_none.mp hio, hreqs, hthree, hfive,
    (hall mixedTurns (meets_of_plain (fun _ hx => hx) hplain)).2.at_end hp⟩

/-- A file of the last of `2 ^ 22 + 1` drives, whose identifiers begin at `2 ^ 32`. -/
def onLastDrive : System := System.start wrapConfig (oneBlock 8192) threesFives fun _ => 0

/-- The call makes its request; another ULT reads from drive 0, and that drive answers. -/
def earlyTurns : List Turn :=
  .driver (.nvmeReadReq 0 1 0 512 40000) :: List.replicate 3 (.driver (.host 0 0)) ++
    [.driver (.exec 0 0 0), .driver (.post 0 0 0 plainCqe)] ++ List.replicate 40 .next

/-- The request has the identifier of the other one, and the call returns before its drive has
answered. -/
theorem wrapped_read_delivers_nothing : ∃ s' p, wrapConfig.nvme.Valid ∧ wrapConfig.nvme.Addressed ∧
    FileMapped onLastDrive.fs.sb 0 ∧
    Others wrapConfig.nvme ((onLastDrive.readIo 0 0 512 0 20000).reserve wrapConfig onLastDrive
      fun x => x < 30000) onLastDrive.driver ∧
    onLastDrive.readImpl 0 0 512 0 20000 = .ok s' ∧
    Meets (Turn.logged wrapConfig) (fun o p => o.Admissible wrapConfig
      ((onLastDrive.readIo 0 0 512 0 20000).reserve wrapConfig onLastDrive fun x => x < 30000)
      (stays onLastDrive (onLastDrive.readIo 0 0 512 0 20000)) p.system) earlyTurns ⟨s', .empty⟩ ∧
    run (Turn.logged wrapConfig) earlyTurns ⟨s', .empty⟩ = .ok p ∧ p.system.io = none ∧
    ¬ Delivers wrapConfig onLastDrive (onLastDrive.readIo 0 0 512 0 20000) (fun x => x < 30000) p := by
  have hlen : (onLastDrive.readIo 0 0 512 0 20000).ioLen = 512 := by decide +kernel
  have hrun : ∃ s', onLastDrive.readImpl 0 0 512 0 20000 = .ok s' ∧
      (Meets (Turn.logged wrapConfig) (fun o p => o.Plain wrapConfig p.system) earlyTurns ⟨s', .empty⟩ ∧
        ∃ p, run (Turn.logged wrapConfig) earlyTurns ⟨s', .empty⟩ = .ok p ∧ p.system.io.isNone ∧
          p.system.driver.user 20000 = 0 ∧ byteOn p.system.driver.disk
            (byteAddr wrapConfig.nvme.nd onLastDrive.fs.sb 0 0) = 5) := by
    decide +kernel
  obtain ⟨s', hs', hplain, p, hp, hio, huser, hdisk⟩ := hrun
  have hnone := Option.isNone_iff_eq_none.mp hio
  refine ⟨s', p, oneCore_valid (by decide), oneCore_addressed _,
    fileMapped_oneBlock (by simp [numBlocks]) _ _ _, others_start _ _ _, hs',
    meets_of_plain (fun _ hx => hx) hplain, hp, hnone, fun h => ?_⟩
  have hzero := h.delivered hnone 0 (by rw [hlen]; decide)
  have hbad : p.system.driver.user 20000 = byteOn p.system.driver.disk
    (byteAddr wrapConfig.nvme.nd onLastDrive.fs.sb 0 0) := hzero
  rw [huser, hdisk] at hbad
  exact absurd hbad (by decide)

end Pthabt.Hook
