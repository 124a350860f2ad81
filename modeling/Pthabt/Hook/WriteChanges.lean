import Pthabt.Hook.ReadDelivers
import Pthabt.Nvme.SharedWrites

/-! What a call of `write_impl` changes on the drives when its length is a multiple of 512. One ULT is in
the call; others read through the same queues, and the drives answer in any order. -/

namespace Pthabt.Hook

open Lib Run Bytes Myfs Nvme

/-! ### A call and what it changes -/

/-- The call of `write_impl` where its loop begins. -/
def writeIo (core hookfd len pos buf : ℕ) : Io :=
  ⟨true, core, hookfd, len, pos, buf, len, fun _ => 0, .outer 0, .loop⟩

namespace Io

/-- The entries of the block tables that the call uses. -/
def entries (a : Io) (i b : ℕ) : Prop := i = a.hookfd ∧ ∃ k < a.ioLen, b = (a.pos + k) / blockSize

end Io

/-- The drives hold what was in `buf` at the place of the range, and elsewhere what they held in
`s₀`. -/
structure ChangesOnly (c : IoConfig) (s₀ : System) (a : Io) (s : System) : Prop where
  written : ∀ k < a.ioLen, byteOn s.driver.disk (byteAddr c.nvme.nd s.fs.sb a.hookfd (a.pos + k)) =
    s₀.driver.user (a.buf + k)
  others : ∀ did < c.nvme.nd, ∀ x, ¬ rangeAt c.nvme.nd s.fs.sb a.hookfd a.pos a.ioLen did x →
    s.driver.disk did x = s₀.driver.disk did x

/-- The writes that were requested since `s₀` are completed. -/
def WritesDone (c : IoConfig) (s₀ s : System) : Prop :=
  ∀ did < c.nvme.nd, ∀ core < c.nvme.nCore, ∀ i < (s.driver.queue did core).issued,
    (s₀.driver.queue did core).issued ≤ i → ((s.driver.queue did core).cmd i).req.write = true →
      ((s.driver.queue did core).cmd i).stage.Completed

/-- `Admissible` while `a` writes: nobody else writes to the drives. The ring has a block when the call
needs one; others leave the entries of its range alone and map no block twice. -/
def Turn.Orderly (c : IoConfig) (own : ℕ → Prop) (a : Io) (o : Turn) (s : System) : Prop :=
  o.Admissible c ⟨own, fun _ _ => True⟩ a.entries s ∧
    match o with
    | .next => s.RingLasts c
    | .files fs => BlockInv fs.sb
    | .driver _ | .store _ => True

/-- What is known of a call of `write_impl` when it begins. -/
structure RangeWrite (c : IoConfig) (a : Io) (own : ℕ → Prop) : Prop where
  core_lt : a.core < c.nvme.nCore
  write : a.write = true
  fd : a.hookfd < maxFiles
  pos : a.pos % 512 = 0
  whole : 512 ∣ a.ioLen
  room : a.pos + a.ioLen ≤ maxBlocksPerFile * blockSize
  len_lt : a.ioLen < 2 ^ 31 - 4096
  own : ∀ k < a.ioLen, own (a.buf + k)

/-! ### The bytes of the range -/

/-- With `Y` the drives hold the first `n` bytes of the range at their place, and elsewhere what they
held in `s₀`. -/
structure Pictured (nd : ℕ) (s₀ : System) (a : Io) (sb : Superblock numBlocks) (n : ℕ)
    (Y : ℕ → ℕ → Byte) : Prop where
  mapped : ∀ k < n, Mapped sb a.hookfd (a.pos + k)
  written : ∀ k < n, byteOn Y (byteAddr nd sb a.hookfd (a.pos + k)) = s₀.driver.user (a.buf + k)
  others : ∀ did x, ¬ rangeAt nd sb a.hookfd a.pos n did x → Y did x = s₀.driver.disk did x

section Range

variable {nd n : ℕ} {s₀ : System} {a : Io} {sb sb' : Superblock numBlocks} {Y : ℕ → ℕ → Byte}

/-- Block tables that agree on the range. -/
theorem rangeAt_congr (h : ∀ k < n, byteAddr nd sb' a.hookfd (a.pos + k) =
    byteAddr nd sb a.hookfd (a.pos + k)) (did x : ℕ) :
    rangeAt nd sb' a.hookfd a.pos n did x ↔ rangeAt nd sb a.hookfd a.pos n did x := by
  refine exists_congr fun k => and_congr_right fun hk => ?_
  rw [h k hk]

theorem Pictured.congr (h : Pictured nd s₀ a sb n Y)
    (hmapped : ∀ k < n, Mapped sb' a.hookfd (a.pos + k))
    (haddr : ∀ k < n, byteAddr nd sb' a.hookfd (a.pos + k) = byteAddr nd sb a.hookfd (a.pos + k)) :
    Pictured nd s₀ a sb' n Y where
  mapped := hmapped
  written k hk := by
    rw [haddr k hk]
    exact h.written k hk
  others did x hout := h.others did x fun hin => hout ((rangeAt_congr haddr did x).mpr hin)

/-- The next `step` bytes of the range, at `start` on drive `did`. -/
theorem Pictured.extend (h : Pictured nd s₀ a sb n Y) (hr : InRange sb) (hd : MappedOnce sb)
    {step did start : ℕ} {user : ℕ → Byte} (hmapped : ∀ k < step, Mapped sb a.hookfd (a.pos + (n + k)))
    (haddr : ∀ k < step, byteAddr nd sb a.hookfd (a.pos + (n + k)) = (did, start + k))
    (hu : ∀ k < step, user (a.buf + n + k) = s₀.driver.user (a.buf + (n + k))) :
    Pictured nd s₀ a sb (n + step) (Function.update Y did (blit (Y did) user start (a.buf + n) step)) := by
  have hsplit : ∀ k < n + step, k < n ∨ ∃ l < step, k = n + l := fun k hk => by
    by_cases hlt : k < n
    · exact .inl hlt
    · exact .inr ⟨k - n, by omega, by omega⟩
  have hkeep : ∀ did' x, ¬ (did' = did ∧ start ≤ x ∧ x < start + step) →
      Function.update Y did (blit (Y did) user start (a.buf + n) step) did' x = Y did' x := by
    intro did' x hout
    by_cases he : did' = did
    · subst he
      rw [Function.update_self]
      exact blit_outside _ _ (by omega)
    · rw [Function.update_of_ne he]
  refine ⟨fun k hk => ?_, fun k hk => ?_, fun did' x hout => ?_⟩
  · rcases hsplit k hk with hk | ⟨l, hl, rfl⟩
    · exact h.mapped k hk
    · exact hmapped l hl
  · rcases hsplit k hk with hk | ⟨l, hl, rfl⟩
    · rw [byteOn, hkeep]
      · exact h.written k hk
      · rintro ⟨hdid, hle, hlt⟩
        exact not_rangeAt_of_chunk hr hd (fun _ _ => rfl) h.mapped hmapped haddr hle hlt
          ⟨k, hk, Prod.ext hdid rfl⟩
    · rw [haddr l hl, byteOn, Function.update_self]
      exact (blit_at _ _ hl).trans (hu l hl)
  · rw [hkeep]
    · exact h.others did' x fun hmem => by
        obtain ⟨k, hk, hkx⟩ := hmem
        exact hout ⟨k, by omega, hkx⟩
    · rintro ⟨rfl, hle, hlt⟩
      obtain ⟨l, rfl⟩ := Nat.exists_eq_add_of_le hle
      exact hout ⟨n + l, by omega, haddr l (by omega)⟩

end Range

/-! ### The invariant -/

/-- What a call in progress has called. -/
def Io.AtWrite (c : IoConfig) (io : Io) : Prop :=
  match io.call with
  | .loop => True
  | .request did rqK back => did < c.nvme.nd ∧ ∃ j, io.loop c = (back, some (.request rqK j))
  | .test _ k back | .poll k back => io.loop c = (back, some (.check k))

/-- The call `a` is in progress at `io`, where it has requested `n` bytes. -/
structure Engaged (c : IoConfig) (a : Io) (n : ℕ) (io : Io) : Prop where
  same : a.Same io
  loop : LoopInv a.blksz a.ioLen io.pc
  requested : io.requested = n
  call : io.AtWrite c
  rids : ∀ k, Awaited io.pc k → ∃ did < c.nvme.nd, ∃ cid < c.nvme.qd, io.rid k = ridOf c.nvme did a.core cid

/-- A queue serves a write only where the call requests it. -/
def InHand (c : IoConfig) (s : System) : Prop :=
  ∀ did < c.nvme.nd, ∀ core < c.nvme.nCore, ∀ r, (s.driver.queue did core).pc.serves = some r →
    r.write = true → ∃ io rqK back, s.io = some io ∧ io.call = .request did rqK back ∧ io.core = core

/-- What the queues and memory hold while the bytes `A` are written. -/
structure Sending (c : IoConfig) (s₀ : System) (own : ℕ → Prop) (A : ℕ → ℕ → Prop) (Y : ℕ → ℕ → Byte)
    (S : Driver) : Prop where
  driver : DriverInv c.nvme S
  queues : WriterQueues c.nvme own A Y (fun did core => (s₀.driver.queue did core).issued) S
  memory : OwnKept own s₀.driver.user S.user

/-- Invariant of a call that writes among others, where it has requested `n` bytes. -/
structure ChangeInv (c : IoConfig) (s₀ : System) (a : Io) (own : ℕ → Prop) (n : ℕ) (Y : ℕ → ℕ → Byte)
    (s : System) : Prop where
  sending : Sending c s₀ own (rangeAt c.nvme.nd s.fs.sb a.hookfd a.pos n) Y s.driver
  blocks : BlockInv s.fs.sb
  picture : Pictured c.nvme.nd s₀ a s.fs.sb n Y
  le : n ≤ a.ioLen
  hand : InHand c s
  engaged : ∀ io, s.io = some io → Engaged c a n io
  returned : s.io = none → n = a.ioLen

section Steps

variable {c : IoConfig} {s₀ s : System} {a io : Io} {own : ℕ → Prop} {n : ℕ} {Y : ℕ → ℕ → Byte} {back : LoopPc}

theorem Sending.next {A : ℕ → ℕ → Prop} {S : Driver} {o : DriverStep} (h : Sending c s₀ own A Y S)
    (hv : c.Valid) (hA : o.Admissible c.nvme S) (hr : ∀ r, o.on = .request r → Bystander own r) :
    Sending c s₀ own A Y (o.next c.nvme S) := by
  obtain ⟨hqueues, hu⟩ := h.queues.next h.driver hv.nvme hv.addressed hA hr
  exact ⟨h.driver.next hv.nvme hA, hqueues, fun x hx => (hu x hx).trans (h.memory x hx)⟩

/-- A step at which no write is requested, and the call stays in what it has called. -/
theorem InHand.next (h : InHand c s) {o : DriverStep} (hr : ∀ r, o.on = .request r → r.write = false)
    {io' : Option Io} (hio : ∀ io rqK back did, s.io = some io → io.call = .request did rqK back → io' = some io) :
    InHand c { s with driver := o.next c.nvme s.driver, io := io' } := by
  intro did hd core hk r hserves hw
  have hne : o.on ≠ .request r := by
    intro hon
    rw [hr r hon] at hw
    cases hw
  obtain ⟨io, rqK, back, hs, hat, hcore⟩ := h did hd core hk r (serves_of_next hne hserves) hw
  exact ⟨io, rqK, back, hio io rqK back did hs hat, hat, hcore⟩

/-- Elsewhere the call goes on as it likes. -/
theorem InHand.setIo (h : InHand c s) (hio : s.io = some io) (hat : ∀ did rqK back, io.call ≠ .request did rqK back)
    (fs : Fs numBlocks) (io' : Option Io) : InHand c { s with fs := fs, io := io' } := by
  intro did hd core hk r hserves hw
  obtain ⟨io₁, rqK, back, hs, hcall, -⟩ := h did hd core hk r hserves hw
  rw [hio] at hs
  cases hs
  exact absurd hcall (hat did rqK back)

theorem Engaged.loop_eq (h : Engaged c a n io) (hw : a.write = true) {x : LoopPc × Option LoopAct}
    (hl : io.loop c = x) : writeStep c.writeDeg a.blksz a.ioLen io.pc = x := by
  have hloop := Io.loop_write hl (h.same.write.trans hw)
  rwa [h.same.blksz, h.same.ioLen] at hloop

/-- The call goes on at another place. -/
theorem ChangeInv.of_io (h : ChangeInv c s₀ a own n Y s) {S : Driver}
    (hs : Sending c s₀ own (rangeAt c.nvme.nd s.fs.sb a.hookfd a.pos n) Y S) {io' : Io}
    (hh : InHand c { s with driver := S, io := some io' }) (he : Engaged c a n io') :
    ChangeInv c s₀ a own n Y { s with driver := S, io := some io' } where
  sending := hs
  blocks := h.blocks
  picture := h.picture
  le := h.le
  hand := hh
  engaged io hio := by
    cases hio
    exact he
  returned := by simp

/-- The call goes to another place of the function it has called. -/
theorem Engaged.setCall (h : Engaged c a n io) {call : LoopCall} (hat : Io.AtWrite c { io with call := call })
    (hn : Io.requested { io with call := call } = io.requested) : Engaged c a n { io with call := call } := by
  obtain ⟨hwrite, hcore, hfd, hpos, hbuf, hlen⟩ := h.same
  exact ⟨⟨hwrite, hcore, hfd, hpos, hbuf, hlen⟩, h.loop, hn.trans h.requested, hat, h.rids⟩

theorem RangeWrite.blksz_dvd (h : RangeWrite c a own) : a.blksz ∣ a.ioLen := by
  rw [Io.blksz_write h.write]
  exact writeBlksz_dvd h.whole

/-- The loop goes on without a request. -/
theorem Engaged.resume (h : Engaged c a n io) (hr : RangeWrite c a own) {act : Option LoopAct}
    (hl : io.loop c = (back, act)) (hact : ∀ rqK j, act ≠ some (.request rqK j))
    (hreq : io.requested = progress io.ioLen io.pc) (hback : ∀ k, Awaited back k → Awaited io.pc k) :
    Engaged c a n (io.resume back) := by
  obtain ⟨hwrite, hcore, hfd, hpos, hbuf, hlen⟩ := h.same
  have hstep := h.loop_eq hr.write hl
  have hloop : LoopInv a.blksz a.ioLen (writeStep c.writeDeg a.blksz a.ioLen io.pc).1 :=
    loopInv_next h.loop hr.blksz_dvd
  rw [hstep] at hloop
  refine ⟨⟨hwrite, hcore, hfd, hpos, hbuf, hlen⟩, hloop, ?_, trivial, fun k hk => h.rids k (hback k hk)⟩
  rw [← h.requested, hreq, hlen]
  change progress io.ioLen back = _
  rw [hlen]
  exact progress_quiet h.loop hstep hact

theorem Mapped.mapBlock {sb : Superblock numBlocks} {i x : ℕ} (h : Mapped sb i x) (k b : ℕ) :
    Mapped (mapBlock sb k b) i x := by
  obtain ⟨hi, hx, hne⟩ := h
  refine ⟨hi, hx, ?_⟩
  by_cases he : i = k ∧ x / blockSize = b
  · obtain ⟨rfl, rfl⟩ := he
    rwa [mapBlock_of_mapped hne]
  · rwa [mapBlock_block_of_ne sb he]

/-- A request stays in its block. -/
theorem block_of_chunk {q step k : ℕ} (hq : q % 512 = 0)
    (hchunk : q / 512 % raidFactor + numBlk step ≤ raidFactor) (hwhole : numBlk step * 512 = step)
    (hk : k < step) : (q + k) / blockSize = q / blockSize := by
  have hbs : blockSize = 2097152 := by simp [blockSize]
  rw [raidFactor_eq] at hchunk
  rw [hbs]
  omega

theorem mapped_of_chunk {sb : Superblock numBlocks} {i q step : ℕ} (h : Mapped sb i q) (hq : q % 512 = 0)
    (hchunk : q / 512 % raidFactor + numBlk step ≤ raidFactor) (hwhole : numBlk step * 512 = step)
    (hroom : q + step ≤ maxBlocksPerFile * blockSize) : ∀ k < step, Mapped sb i (q + k) := by
  intro k hk
  refine ⟨h.1, by omega, ?_⟩
  rw [block_of_chunk hq hchunk hwhole hk]
  exact h.2.2

/-- The call requests a write of its own queue. -/
theorem InHand.request (h : InHand c s) (hio : s.io = some io) (hat : io.call = .loop) {o : DriverStep}
    (hcore : io.core = o.core c.nvme) (rqK : ℕ) (fs : Fs numBlocks) :
    InHand c { s with
      fs := fs
      driver := o.next c.nvme s.driver
      io := some { io with call := .request (o.did c.nvme) rqK back } } := by
  intro d hd k hk r hserves hw
  by_cases hq : d = o.did c.nvme ∧ k = o.core c.nvme
  · obtain ⟨rfl, rfl⟩ := hq
    exact ⟨_, rqK, back, rfl, rfl, hcore⟩
  · rw [queue_next_of_ne c.nvme o _ hq] at hserves
    obtain ⟨io', rqK', back', hs, hat', -⟩ := h d hd k hk r hserves hw
    rw [hio] at hs
    cases hs
    rw [hat] at hat'
    cases hat'

/-- The request, in terms of the call. -/
theorem Engaged.request_eq (he : Engaged c a n io) (hw : a.write = true) {rqK j lba : ℕ}
    {sb : Superblock numBlocks} (hint : j + a.blksz < 2 ^ 31)
    (hget : myfsGetLba s.fs.sb a.hookfd ((a.pos + j) % 2 ^ 64) true = some (sb, some lba)) :
    s.request c io rqK j back = .ok { s with
      fs := { s.fs with sb := sb }
      driver := (DriverStep.nvmeWriteReq lba (numBlk a.blksz) a.core (reqLen a.blksz a.ioLen j)
        (a.buf + j)).next c.nvme s.driver
      io := some { io with call := .request (reqDid c.nvme.nd lba) rqK back } } := by
  obtain ⟨hwrite, hcore, hfd, hpos, hbuf, hlen⟩ := he.same
  unfold System.request
  rw [he.same.blksz, if_pos hint, hfd, hpos, hwrite, hw, hget]
  simp only [if_true, hcore, hlen, hbuf]

/-- The call of `nvme_write_req`. -/
theorem ChangeInv.request (h : ChangeInv c s₀ a own n Y s) (hv : c.Valid) (hr : RangeWrite c a own)
    (hio : s.io = some io) (hat : io.call = .loop) {rqK j : ℕ}
    (hl : io.loop c = (back, some (.request rqK j)))
    (hfree : ∀ q, s.takes c = some q → (s.driver.queue q.1 q.2).pc = .idle) (hring : s.RingLasts c) :
    (s.request c io rqK j back).Safe fun s' => ∃ n Y, ChangeInv c s₀ a own n Y s' := by
  have he := h.engaged io hio
  have hstep := he.loop_eq hr.write hl
  obtain ⟨hj, hprog, hle, -⟩ := progress_request he.loop hr.blksz_dvd hstep
  obtain ⟨hpc, -⟩ := writeStep_request hstep
  obtain ⟨hwrite, hcore, hfd, hpos, hbuf, hlen⟩ := he.same
  obtain rfl : n = j := by
    rw [← he.requested, hj, Io.requested, hat, hlen]
  have hmul : a.blksz ∣ n := by
    have hloop := he.loop
    rw [hpc] at hloop
    exact hloop.1
  -- the block of the request
  have hroom := hr.room
  have hblksz := Io.blksz_write hr.write
  have hpos_blksz : 0 < a.blksz := by
    rw [hblksz]
    exact writeBlksz_pos _ _
  have hlt : a.pos + n < maxBlocksPerFile * blockSize := by omega
  have hint : n + a.blksz < 2 ^ 31 := by
    have hlen := hr.len_lt
    omega
  have hempty := hring io rqK n back hio hat hl (hwrite.trans hr.write)
  rw [hfd, hpos] at hempty
  set b := (a.pos + n) / blockSize with hb
  set sb := mapBlock s.fs.sb a.hookfd b with hsb
  set lba := lbaOf ((sb.file a.hookfd).block b) (a.pos + n) with hlba
  have hget : myfsGetLba s.fs.sb a.hookfd ((a.pos + n) % 2 ^ 64) true =
      some (sb, if (sb.file a.hookfd).block b = inactiveBlock then none else some lba) := by
    rw [getLba_write _ _ hlt]
  by_cases hm : (sb.file a.hookfd).block b = inactiveBlock
  · unfold System.request
    rw [he.same.blksz, if_pos hint, hfd, hpos, hwrite, hr.write, hget, if_pos hm]
    trivial
  rw [if_neg hm] at hget
  have hblocks := h.blocks.mapBlock hr.fd (block_lt hlt) hempty hm
  have hrange := inRange_of_inv hblocks
  have honce := mappedOnce_of_inv hblocks
  have hmapped : Mapped sb a.hookfd (a.pos + n) := ⟨hr.fd, hlt, hm⟩
  -- its bytes
  obtain ⟨hsector, hwhole, hchunk⟩ := aligned_of_write hr.pos (hblksz ▸ hmul)
  rw [← hblksz] at hwhole hchunk
  have hd : reqDid c.nvme.nd lba < c.nvme.nd := Nat.mod_lt _ hv.nvme.nd_pos
  obtain ⟨hbytes, hjob⟩ := writeJob_of_chunk (c := c.nvme) a.core a.buf (hrange.inBlock hmapped) hsector
    hpos_blksz hwhole hle hchunk hlba rfl
  have hnew : ∀ k < a.blksz, Mapped sb a.hookfd (a.pos + (n + k)) := by
    intro k hk
    rw [← Nat.add_assoc]
    exact mapped_of_chunk hmapped hsector hchunk.1 hwhole (by omega) k hk
  have hkeep : ∀ k < n, Mapped sb a.hookfd (a.pos + k) :=
    fun k hk => Mapped.mapBlock (h.picture.mapped k hk) _ _
  have hold : ∀ k < n, byteAddr c.nvme.nd sb a.hookfd (a.pos + k) =
      byteAddr c.nvme.nd s.fs.sb a.hookfd (a.pos + k) :=
    fun k hk => byteAddr_mapBlock (h.picture.mapped k hk)
  set r := ioRequest true lba a.blksz a.ioLen n a.buf with hreq
  have hrlen : r.len = a.blksz := reqLen_of_le hle
  -- the queue of the request
  set o := DriverStep.nvmeWriteReq lba (numBlk a.blksz) a.core (reqLen a.blksz a.ioLen n) (a.buf + n)
    with ho
  have hget' : myfsGetLba s.fs.sb io.hookfd ((io.pos + n) % 2 ^ 64) io.write = some (sb, some lba) := by
    rw [hfd, hpos, hwrite, hr.write, hget]
  have hidle : (s.driver.queue (reqDid c.nvme.nd lba) a.core).pc = .idle := by
    have hidle := hfree _ (System.takes_request hio hat hl hget')
    rwa [hcore] at hidle
  have hA : o.Admissible c.nvme s.driver :=
    ⟨hd, hr.core_lt, ⟨hidle, (reqLen_le _ _ _).trans ((step_le_numBlk _).trans hchunk.2), by simp⟩, by simp⟩
  have hsends : Sends (c.nvme.qp (o.did c.nvme) (o.core c.nvme)) own
      (rangeAt c.nvme.nd sb a.hookfd a.pos (n + a.blksz) (o.did c.nvme)) r := by
    refine ⟨hjob, fun k hk => ?_⟩
    have hown := hr.own (n + k) (by omega)
    rwa [← Nat.add_assoc] at hown
  have hon : o.on = .request r := rfl
  have hout : ∀ x, r.Targets (c.nvme.qp (o.did c.nvme) (o.core c.nvme)) x →
      ¬ rangeAt c.nvme.nd s.fs.sb a.hookfd a.pos n (o.did c.nvme) x := by
    rintro x ⟨hle, hlt⟩
    have hlast : x < reqCdw10 c.nvme.nd lba * 512 + numBlk a.blksz * 512 := hlt
    exact not_rangeAt_of_chunk hrange honce hold hkeep hnew hbytes hle (by omega)
  obtain ⟨hqueues, huser⟩ := h.sending.queues.request hA hon
    (fun d x ⟨k, hk, hx⟩ => ⟨k, by omega, (hold k hk).trans hx⟩) hsends hout
  rw [hrlen] at hqueues
  have hmemory : ∀ k < a.blksz, s.driver.user (a.buf + n + k) = s₀.driver.user (a.buf + (n + k)) := by
    intro k hk
    rw [Nat.add_assoc]
    exact h.sending.memory _ (hr.own _ (by omega))
  have hpicture := (h.picture.congr hkeep hold).extend hrange honce hnew hbytes hmemory
  set io' : Io := { io with call := .request (reqDid c.nvme.nd lba) rqK back } with hio'
  have hprog' : io'.requested = n + a.blksz := by
    change progress io.ioLen back = _
    rw [hlen]
    exact hprog
  rw [he.request_eq hr.write hint hget]
  refine ⟨n + a.blksz, _, ⟨⟨h.sending.driver.next hv.nvme hA, hqueues, ?_⟩, hblocks, hpicture, hle,
    h.hand.request (o := o) hio hat hcore rqK _, ?_, by simp⟩⟩
  · rw [huser]
    exact h.sending.memory
  · intro io₁ hio₁
    cases hio₁
    exact ⟨⟨hwrite, hcore, hfd, hpos, hbuf, hlen⟩, he.loop, hprog', ⟨hd, n, hl⟩, he.rids⟩

/-- The record of what was written is beside the invariant. -/
theorem ChangeInv.content (h : ChangeInv c s₀ a own n Y s) (content : CString → ℕ → Option Byte) :
    ChangeInv c s₀ a own n Y { s with content := content } :=
  ⟨h.sending, h.blocks, h.picture, h.le, h.hand, h.engaged, h.returned⟩

/-- What the call waits for, or has called. -/
theorem Engaged.checked (h : Engaged c a n io) {k : ℕ}
    (hat : (∃ again, io.call = .test again k back) ∨ io.call = .poll k back) :
    io.loop c = (back, some (.check k)) := by
  have hcall := h.call
  unfold Io.AtWrite at hcall
  rcases hat with ⟨again, hat⟩ | hat
  · rwa [hat] at hcall
  · rwa [hat] at hcall

theorem Engaged.called (h : Engaged c a n io) {did rqK : ℕ} (hat : io.call = .request did rqK back) :
    did < c.nvme.nd ∧ ∃ j, io.loop c = (back, some (.request rqK j)) := by
  have hcall := h.call
  unfold Io.AtWrite at hcall
  rwa [hat] at hcall

/-- The identifier that the loop waits for is one that a request returned. -/
theorem Engaged.rid (h : Engaged c a n io) (hr : RangeWrite c a own) (hv : c.Valid) {k : ℕ}
    (hl : io.loop c = (back, some (.check k))) :
    0 ≤ io.rid k ∧ ridDid c.nvme (io.rid k) < c.nvme.nd ∧ ridCore c.nvme (io.rid k) = a.core := by
  obtain ⟨did, hd, cid, hcid, hrid⟩ := h.rids k (Io.loop_check hl).awaited
  obtain ⟨hdid, hcore, -⟩ := rid_decode hv.fits hd hr.core_lt hcid
  rw [hrid]
  refine ⟨?_, hdid.symm ▸ hd, hcore⟩
  rw [ridOf_eq hv.fits hd hr.core_lt hcid]
  exact Int.natCast_nonneg _

/-- The loop moves on by itself. -/
theorem ChangeInv.quiet (h : ChangeInv c s₀ a own n Y s) (hr : RangeWrite c a own) (hio : s.io = some io)
    (hat : io.call = .loop) (hl : io.loop c = (back, none)) :
    ChangeInv c s₀ a own n Y { s with io := some (io.resume back) } := by
  have he := h.engaged io hio
  have hawait := writeStep_quiet (he.loop_eq hr.write hl)
  refine h.of_io h.sending (h.hand.setIo hio (by rw [hat]; simp) s.fs _)
    (he.resume hr hl (by simp) ?_ fun k hk => (hawait k).mpr hk)
  rw [Io.requested, hat]

/-- The call goes to a place of a function where it requests nothing. -/
theorem ChangeInv.setCall (h : ChangeInv c s₀ a own n Y s) (hio : s.io = some io)
    (hold : ∀ did rqK back, io.call ≠ .request did rqK back) {call : LoopCall}
    (hnew : ∀ did rqK back, call ≠ .request did rqK back) (hat : Io.AtWrite c { io with call := call }) :
    ChangeInv c s₀ a own n Y { s with io := some { io with call := call } } := by
  refine h.of_io h.sending (h.hand.setIo hio hold s.fs _) ((h.engaged io hio).setCall hat ?_)
  unfold Io.requested
  cases hcall : io.call with
  | request did rqK back => exact absurd hcall (hold did rqK back)
  | _ =>
    cases call with
    | request did rqK back => exact absurd rfl (hnew did rqK back)
    | _ => rfl

/-- `write_impl` returns. -/
theorem ChangeInv.return_ (h : ChangeInv c s₀ a own n Y s) (hio : s.io = some io) (hat : io.call = .loop)
    (hpc : io.pc = .done) :
    ChangeInv c s₀ a own n Y { s with fs := myfsDecrementRef s.fs io.hookfd, io := none } := by
  have he := h.engaged io hio
  have hsb := decrementRef_sb s.fs io.hookfd
  have hdone : n = a.ioLen := by
    rw [← he.requested, Io.requested, hat, hpc, ← he.same.ioLen]
    rfl
  refine ⟨?_, ?_, ?_, h.le, h.hand.setIo hio (by rw [hat]; simp) _ _, by simp, fun _ => hdone⟩
  · dsimp only
    rw [hsb]
    exact h.sending
  · dsimp only
    rw [hsb]
    exact h.blocks
  · dsimp only
    rw [hsb]
    exact h.picture

/-- A step of the call in a queue, at which it requests nothing. -/
theorem ChangeInv.drive (h : ChangeInv c s₀ a own n Y s) (hv : c.Valid) (hio : s.io = some io)
    {o : DriverStep} (hA : o.Admissible c.nvme s.driver) (hr : ∀ r, o.on ≠ .request r) :
    ChangeInv c s₀ a own n Y { s with driver := o.next c.nvme s.driver } := by
  have hsending := h.sending.next hv hA fun r hon => absurd hon (hr r)
  have hhand : InHand c { s with driver := o.next c.nvme s.driver, io := some io } :=
    h.hand.next (fun r hon => absurd hon (hr r)) fun io' rqK back did hs hat => by rw [← hs, hio]
  have hnext := h.of_io hsending hhand (h.engaged io hio)
  rw [← hio] at hnext
  exact hnext

/-- The doorbell of a request rings, and `nvme_write_req` returns. -/
theorem Engaged.ring (h : Engaged c a n io) (hr : RangeWrite c a own) {did rqK cid : ℕ}
    (hat : io.call = .request did rqK back) (hcid : cid < c.nvme.qd) :
    Engaged c a n (io.returned c did rqK cid back) := by
  obtain ⟨hwrite, hcore, hfd, hpos, hbuf, hlen⟩ := h.same
  obtain ⟨hd, j, hl⟩ := h.called hat
  obtain ⟨hpc, hawait⟩ := Io.loop_request hl
  have hloop : LoopInv a.blksz a.ioLen (writeStep c.writeDeg a.blksz a.ioLen io.pc).1 :=
    loopInv_next h.loop hr.blksz_dvd
  rw [h.loop_eq hr.write hl] at hloop
  refine ⟨⟨hwrite, hcore, hfd, hpos, hbuf, hlen⟩, hloop, ?_, trivial, fun k hk => ?_⟩
  · rw [← h.requested, Io.requested, Io.requested, hat]
    rfl
  · refine rids_update (P := fun x => ∃ did < c.nvme.nd, ∃ cid < c.nvme.qd,
      x = ridOf c.nvme did a.core cid) (fun k hk => h.rids k ?_) ⟨did, hd, cid, hcid, by rw [hcore]⟩
      k (hawait k hk)
    rw [hpc]
    exact hk

theorem ChangeInv.ring (h : ChangeInv c s₀ a own n Y s) (hv : c.Valid) (hr : RangeWrite c a own)
    (hio : s.io = some io) {did rqK cid : ℕ} {r : Request} (hat : io.call = .request did rqK back)
    (hbell : (s.driver.queue did io.core).pc = .doorbell r cid) :
    ChangeInv c s₀ a own n Y { s with
      driver := (DriverStep.host did io.core).next c.nvme s.driver
      io := some (io.returned c did rqK cid back) } := by
  have he := h.engaged io hio
  obtain ⟨hd, -⟩ := he.called hat
  have hlt : io.core < c.nvme.nCore := he.same.core ▸ hr.core_lt
  have hA := host_admissible (c := c) hd hlt s.driver
  have hcid : cid < c.nvme.qd := (h.sending.driver did hd _ hlt).ringing_cid_lt hbell
  refine h.of_io (h.sending.next hv hA (fun _ h => by cases h)) (fun d hd' k hk r' hserves hw => ?_)
    (he.ring hr hat hcid)
  -- only the call's own queue served a write, and that one is free now
  have hbefore := serves_of_next (c := c.nvme) (o := .host did io.core) (fun h => by cases h) hserves
  obtain ⟨io', rqK', back', hio', hat', rfl⟩ := h.hand d hd' k hk r' hbefore hw
  rw [hio] at hio'
  cases hio'
  rw [hat] at hat'
  cases hat'
  have hidle := pc_host_doorbell (c := c) hbell
  dsimp only at hserves
  rw [hidle] at hserves
  cases hserves

/-- A step in `nvme_write_req`. -/
theorem ChangeInv.inRequest (h : ChangeInv c s₀ a own n Y s) (hv : c.Valid) (hr : RangeWrite c a own)
    (hio : s.io = some io) {did rqK : ℕ} (hat : io.call = .request did rqK back) :
    ChangeInv c s₀ a own n Y (s.inRequest c io did rqK back) := by
  by_cases hbell : ∃ r cid, (s.driver.queue did io.core).pc = .doorbell r cid
  · obtain ⟨r, cid, hbell⟩ := hbell
    rw [inRequest_of_doorbell hbell]
    exact h.ring hv hr hio hat hbell
  · push Not at hbell
    have he := h.engaged io hio
    rw [inRequest_of_ne hbell]
    exact h.drive hv hio
      (host_admissible (he.called hat).1 (he.same.core ▸ hr.core_lt) s.driver) (fun _ h => by cases h)

/-- A test of `done` in `nvme_check`. -/
theorem ChangeInv.test (h : ChangeInv c s₀ a own n Y s) (hv : c.Valid) (hr : RangeWrite c a own)
    (hio : s.io = some io) {again : Bool} {k : ℕ} (hat : io.call = .test again k back)
    (hfree : ∀ q, s.takes c = some q → (s.driver.queue q.1 q.2).pc = .idle) :
    ∃ s', s.test c io again k back = .ok s' ∧ ChangeInv c s₀ a own n Y s' := by
  have he := h.engaged io hio
  have hl := he.checked (.inl ⟨again, hat⟩)
  obtain ⟨h0, hd, hcore⟩ := he.rid hr hv hl
  have hno : ∀ did rqK back, io.call ≠ .request did rqK back := by
    rw [hat]
    simp
  unfold System.test
  rw [if_pos ⟨h0, hd⟩]
  split_ifs with hdone hagain
  · refine ⟨_, rfl, h.of_io h.sending (h.hand.setIo hio hno s.fs _) (he.resume hr hl (by simp) ?_
      (Io.loop_check hl).back)⟩
    rw [Io.requested, hat]
  · exact ⟨_, rfl, h.setCall hio hno (by simp) hl⟩
  · have hidle := hfree _ (System.takes_check hio hat hdone hagain)
    have hA : (DriverStep.nvmeCheck (io.rid k)).Admissible c.nvme s.driver :=
      check_admissible h0 hd (hcore.symm ▸ hr.core_lt) hidle
    exact ⟨_, rfl, (h.drive hv hio hA (fun _ h => by cases h)).setCall hio hno (by simp) hl⟩

/-- A step in the `check_cq` of `nvme_check`. -/
theorem ChangeInv.poll (h : ChangeInv c s₀ a own n Y s) (hv : c.Valid) (hr : RangeWrite c a own)
    (hio : s.io = some io) {k : ℕ} (hat : io.call = .poll k back) :
    ChangeInv c s₀ a own n Y (s.poll c io k back) := by
  have he := h.engaged io hio
  have hl := he.checked (.inr hat)
  obtain ⟨-, hd, hcore⟩ := he.rid hr hv hl
  by_cases hpc : (s.driver.queue (ridDid c.nvme (io.rid k)) (ridCore c.nvme (io.rid k))).pc = .idle
  · rw [poll_of_idle hpc]
    exact h.setCall hio (by rw [hat]; simp) (by simp) hl
  · rw [poll_of_ne hpc]
    exact h.drive hv hio (host_admissible hd (hcore.symm ▸ hr.core_lt) s.driver) (fun _ h => by cases h)

/-- The next step of the call. -/
theorem ChangeInv.next (h : ChangeInv c s₀ a own n Y s) (hv : c.Valid) (hr : RangeWrite c a own)
    (hfree : ∀ q, s.takes c = some q → (s.driver.queue q.1 q.2).pc = .idle) (hring : s.RingLasts c) :
    (s.next c).Safe fun s' => ∃ n Y, ChangeInv c s₀ a own n Y s' := by
  unfold System.next
  cases hio : s.io with
  | none => exact ⟨n, Y, h⟩
  | some io =>
    dsimp only
    cases hat : io.call with
    | request did rqK back => exact ⟨n, Y, h.inRequest hv hr hio hat⟩
    | poll k back => exact ⟨n, Y, h.poll hv hr hio hat⟩
    | test again k back =>
      obtain ⟨s', hs', h'⟩ := h.test hv hr hio hat hfree
      dsimp only
      rw [hs']
      exact ⟨n, Y, h'⟩
    | loop =>
      dsimp only
      unfold System.loop
      by_cases hpc : io.pc = .done
      · rw [if_pos hpc]
        exact ⟨n, Y, h.return_ hio hat hpc⟩
      · rw [if_neg hpc]
        cases hl : io.loop c with
        | mk back act =>
          cases act with
          | none => exact ⟨n, Y, h.quiet hr hio hat hl⟩
          | some act =>
            cases act with
            | request rqK j => exact h.request hv hr hio hat hl hfree hring
            | check k => exact ⟨n, Y, h.setCall hio (by rw [hat]; simp) (by simp) hl⟩

/-- A step of another ULT in the driver, or of a drive. -/
theorem ChangeInv.driver (h : ChangeInv c s₀ a own n Y s) (hv : c.Valid) {o : DriverStep}
    {stays : ℕ → ℕ → Prop} (hA : (Turn.driver o).Admissible c ⟨own, fun _ _ => True⟩ stays s) :
    ChangeInv c s₀ a own n Y { s with driver := o.next c.nvme s.driver } := by
  obtain ⟨hA, -, hforeign⟩ := hA
  have hby : ∀ r, o.on = .request r → Bystander own r :=
    fun r hon => (hforeign r hon).bystander fun _ => trivial
  exact ⟨h.sending.next hv hA hby, h.blocks, h.picture, h.le,
    h.hand.next (fun r hon => (hby r hon).read) fun io rqK back did hs _ => hs, h.engaged, h.returned⟩

/-- What other ULTs do to the file system. -/
theorem ChangeInv.files (h : ChangeInv c s₀ a own n Y s) {fs : Fs numBlocks}
    (hstays : ∀ i b, a.entries i b → (fs.sb.file i).block b = (s.fs.sb.file i).block b)
    (hblocks : BlockInv fs.sb) : ChangeInv c s₀ a own n Y { s with fs := fs } := by
  have hentry : ∀ k < n, (fs.sb.file a.hookfd).block ((a.pos + k) / blockSize) =
      (s.fs.sb.file a.hookfd).block ((a.pos + k) / blockSize) :=
    fun k hk => hstays _ _ ⟨rfl, k, lt_of_lt_of_le hk h.le, rfl⟩
  have haddr : ∀ k < n, byteAddr c.nvme.nd fs.sb a.hookfd (a.pos + k) =
      byteAddr c.nvme.nd s.fs.sb a.hookfd (a.pos + k) := by
    intro k hk
    unfold byteAddr
    rw [hentry k hk]
  refine ⟨⟨h.sending.driver, h.sending.queues.congr fun did x => (rangeAt_congr haddr did x).symm,
    h.sending.memory⟩, hblocks, h.picture.congr (fun k hk => ?_) haddr, h.le, h.hand, h.engaged, h.returned⟩
  obtain ⟨hi, hlt, hm⟩ := h.picture.mapped k hk
  exact ⟨hi, hlt, hentry k hk ▸ hm⟩

/-- What other ULTs do to memory. -/
theorem ChangeInv.store (h : ChangeInv c s₀ a own n Y s) {user : ℕ → Byte}
    (hu : OwnKept own s.driver.user user) :
    ChangeInv c s₀ a own n Y { s with driver := { s.driver with user := user } } :=
  ⟨⟨h.sending.driver, h.sending.queues.store hu, fun x hx => (hu x hx).trans (h.sending.memory x hx)⟩,
    h.blocks, h.picture, h.le, h.hand, h.engaged, h.returned⟩

theorem ChangeInv.step (hv : c.Valid) (hr : RangeWrite c a own) (o : Turn) (s : System)
    (h : ∃ n Y, ChangeInv c s₀ a own n Y s) (hA : o.Orderly c own a s) :
    (o.step c s).Safe fun s' => ∃ n Y, ChangeInv c s₀ a own n Y s' := by
  obtain ⟨n, Y, h⟩ := h
  obtain ⟨hA, hmore⟩ := hA
  cases o with
  | next => exact h.next hv hr hA hmore
  | driver o => exact ⟨n, Y, h.driver hv hA⟩
  | files fs => exact ⟨n, Y, h.files hA hmore⟩
  | store user => exact ⟨n, Y, h.store hA⟩

/-- A call begins. -/
theorem RangeWrite.start (hinv : DriverInv c.nvme s₀.driver) (hblocks : BlockInv s₀.fs.sb)
    (hothers : Others c.nvme ⟨own, fun _ _ => True⟩ s₀.driver) (hpc : a.pc = .outer 0)
    (hat : a.call = .loop) {fs : Fs numBlocks} (hfs : fs.sb = s₀.fs.sb) :
    ChangeInv c s₀ a own 0 s₀.driver.disk { s₀ with fs := fs, io := some a } := by
  refine ⟨⟨hinv, ?_, fun x _ => rfl⟩, ?_, ⟨by simp, by simp, fun did x _ => rfl⟩, Nat.zero_le _, ?_, ?_, by simp⟩
  · refine (hothers.writer fun _ _ => trivial).congr fun did x => ⟨False.elim, ?_⟩
    rintro ⟨k, hk, -⟩
    exact absurd hk (Nat.not_lt_zero k)
  · dsimp only
    rw [hfs]
    exact hblocks
  · intro did hd core hk r hserves hw
    rw [hothers.serves_read hinv (fun _ _ => trivial) hd hk hserves] at hw
    cases hw
  · intro io hio
    cases hio
    refine ⟨⟨rfl, rfl, rfl, rfl, rfl, rfl⟩, ?_, ?_, ?_, fun k hk => ?_⟩
    · rw [hpc]
      exact ⟨dvd_zero _, Nat.zero_le _⟩
    · rw [Io.requested, hat, hpc]
      rfl
    · unfold Io.AtWrite
      rw [hat]
      trivial
    · rw [hpc] at hk
      exact hk.elim

/-- What the invariant says of the drives when the call has returned and its writes are completed. -/
theorem ChangeInv.changes (h : ChangeInv c s₀ a own n Y s) (hv : c.Valid) (hio : s.io = none)
    (hdone : WritesDone c s₀ s) : ChangesOnly c s₀ a s := by
  obtain rfl := h.returned hio
  have hidle : ∀ did < c.nvme.nd, ∀ core < c.nvme.nCore, ∀ r,
      (s.driver.queue did core).pc.asked = some r → r.write = false := by
    intro did hd core hk r hr
    cases hw : r.write with
    | false => rfl
    | true =>
      have hserves : (s.driver.queue did core).pc.serves = some r := by
        cases hpc : (s.driver.queue did core).pc with
        | _ =>
          rw [hpc] at hr
          first
            | exact hr
            | cases hr
      obtain ⟨io, -, -, hsome, -⟩ := h.hand did hd core hk r hserves hw
      rw [hio] at hsome
      cases hsome
  have hdisk : ∀ did < c.nvme.nd, s.driver.disk did = Y did :=
    fun did hd => h.sending.queues.done hidle hdone hd
  refine ⟨fun k hk => ?_, fun did hd x hout => ?_⟩
  · have hd : (byteAddr c.nvme.nd s.fs.sb a.hookfd (a.pos + k)).1 < c.nvme.nd :=
      Nat.mod_lt _ hv.nvme.nd_pos
    rw [← h.picture.written k hk, byteOn, byteOn, hdisk _ hd]
  · rw [hdisk did hd]
    exact h.picture.others did x hout

end Steps

/-! ### Runs -/

/-- A call of `write_impl` whose length is a multiple of 512 changes the bytes of its range to those of
its buffer, and no other byte of a drive, whatever was done before it, and whatever others do
meanwhile who write to no drive and leave its buffer and the entries of its range alone. -/
theorem write_impl_changes_only {c : IoConfig} (hv : c.Valid) {sb : Superblock numBlocks}
    {disk : ℕ → ℕ → Byte} {user : ℕ → Byte} {before : List Turn} {s : System}
    (hbefore : Meets (Turn.step c) (Turn.Admissible c Reserve.nothing fun _ _ => False) before
      (System.start c sb disk user))
    (hs : run (Turn.step c) before (System.start c sb disk user) = .ok s) (hblocks : BlockInv s.fs.sb)
    {core hookfd len pos buf : ℕ} (hcore : core < c.nvme.nCore) (hfd : hookfd < maxFiles)
    (hpos : pos % 512 = 0) (hroom : pos + len ≤ maxBlocksPerFile * blockSize) (hlen : len < 2 ^ 31 - 4096)
    (hwhole : len % 512 = 0) {own : ℕ → Prop} (hown : ∀ k < len, own (buf + k))
    (hothers : Others c.nvme ⟨own, fun _ _ => True⟩ s.driver) :
    ∃ s', s.writeImpl core hookfd len pos buf = .ok s' ∧ ∀ turns : List Turn,
      Meets (Turn.step c) (Turn.Orderly c own (writeIo core hookfd len pos buf)) turns s' →
        Always (Turn.step c) (fun t => t.io = none → WritesDone c s t →
          ChangesOnly c s (writeIo core hookfd len pos buf) t) turns s' := by
  obtain ⟨hinv, -⟩ := run_inv_of_meets (turn_driver hv) ⟨inv_nvmeInit hv.nvme disk user, rfl⟩ hbefore hs
  have hr : RangeWrite c (writeIo core hookfd len pos buf) own :=
    ⟨hcore, rfl, hfd, hpos, Nat.dvd_of_mod_eq_zero hwhole, hroom, hlen, hown⟩
  have hstart := RangeWrite.start (a := writeIo core hookfd len pos buf) hinv hblocks hothers rfl rfl
    (incrementRef_sb s.fs hookfd)
  refine ⟨_, if_pos hpos, fun turns hA => ?_⟩
  refine always_of_meets (fun t h hio hdone => ?_) (ChangeInv.step hv hr)
    ⟨0, s.driver.disk, hstart.content _⟩ hA
  obtain ⟨n, Y, h⟩ := h
  exact h.changes hv hio hdone

/-! ### Examples -/

instance decidableWritesDone (c : IoConfig) (s₀ s : System) : Decidable (WritesDone c s₀ s) := by
  unfold WritesDone
  infer_instance

instance decidableRangeAt (nd : ℕ) (sb : Superblock numBlocks) (i pos n did x : ℕ) :
    Decidable (rangeAt nd sb i pos n did x) := by
  unfold rangeAt
  infer_instance

/-- `Orderly`, for requests that are `Aside`. -/
def Turn.Tidy (c : IoConfig) (o : Turn) (s : System) : Prop := o.Plain c s ∧ (o = .next → s.RingLasts c)

instance decidableTidy (c : IoConfig) : ∀ (o : Turn) (s : System), Decidable (o.Tidy c s)
  | .next, s => decidable_of_iff (Turn.next.Plain c s ∧ s.RingLasts c)
    ⟨fun h => ⟨h.1, fun _ => h.2⟩, fun h => ⟨h.1, h.2 rfl⟩⟩
  | .driver o, s => decidable_of_iff ((Turn.driver o).Plain c s) ⟨fun h => ⟨h, by simp⟩, fun h => h.1⟩
  | .files _, _ | .store _, _ => isFalse fun h => h.1

theorem orderly_of_tidy {c : IoConfig} {own : ℕ → Prop} (hown : ∀ x, own x → x < 30000) {a : Io}
    {turns : List Turn} {s : System} (h : Meets (Turn.step c) (Turn.Tidy c) turns s) :
    Meets (Turn.step c) (Turn.Orderly c own a) turns s := by
  refine Meets.of_inv (I := fun _ => True) (fun o s _ h => ⟨h.1.admissible hown, ?_⟩)
    (fun _ _ _ _ => Outcome.After.of_forall (fun _ => trivial) _) trivial h
  cases o with
  | next => exact h.2 rfl
  | files fs => exact h.1.elim
  | driver o => trivial
  | store user => trivial

/-- One file without blocks. -/
def emptyFile : Superblock numBlocks where
  magic := myfsMagic
  free := usedRing
  file i := ⟨if i = 0 then nameA else CString.empty, emptyTable, 0⟩

theorem mount_emptyFile : (myfsMount emptyFile).sb = emptyFile := by simp [myfsMount, emptyFile]

theorem blockInv_emptyFile : BlockInv emptyFile := by
  have hfree : emptyFile.free.entries = allBlocks numBlocks := usedRing_entries
  have hempty : ∀ i < maxFiles, ∀ j < maxBlocksPerFile, (emptyFile.file i).block j = inactiveBlock :=
    fun _ _ _ hj => if_pos hj
  have hn : ∀ i < maxFiles, (emptyFile.file i).nBlock = 0 := fun _ _ => rfl
  exact (sound_of_unused hfree hempty hn fun _ => ⟨⟨false, false⟩, 0⟩).1

/-- A new file on two drives with threes and fives; memory has sevens. -/
def onEmptyFile : System := System.start (oneCore 2) emptyFile threesFives sevens

theorem blockInv_onEmptyFile : BlockInv onEmptyFile.fs.sb := by
  have hsb : onEmptyFile.fs.sb = emptyFile := mount_emptyFile
  rw [hsb]
  exact blockInv_emptyFile

/-- One ULT writes to both drives while another one reads from drive 1. -/
def sharedTurns : List Turn :=
  .driver (.nvmeReadReq 24 1 0 512 40000) :: List.replicate 3 (.driver (.host 1 0)) ++
    List.replicate 14 .next ++ [.driver (.exec 1 0 0), .driver (.exec 1 0 1), .driver (.exec 0 0 0),
      .driver (.post 0 0 0 plainCqe), .driver (.post 1 0 0 plainCqe)] ++
    List.replicate 20 .next ++ [.driver (.post 1 0 1 plainCqe)]

/-- Two sectors on two drives. -/
theorem write_impl_changes_sectors : ∃ s' t, onEmptyFile.writeImpl 0 0 1024 3584 8192 = .ok s' ∧
    run (Turn.step (oneCore 2)) sharedTurns s' = .ok t ∧ t.io = none ∧ WritesDone (oneCore 2) onEmptyFile t ∧
      ChangesOnly (oneCore 2) onEmptyFile (writeIo 0 0 1024 3584 8192) t := by
  have hv : (oneCore 2).Valid := ⟨oneCore_valid (by decide), oneCore_addressed 2, by decide⟩
  have hrun : ∃ s', onEmptyFile.writeImpl 0 0 1024 3584 8192 = .ok s' ∧
      (Meets (Turn.step (oneCore 2)) (Turn.Tidy (oneCore 2)) sharedTurns s' ∧
        ∃ t, run (Turn.step (oneCore 2)) sharedTurns s' = .ok t ∧ t.io.isNone ∧
          WritesDone (oneCore 2) onEmptyFile t) := by
    decide +kernel
  obtain ⟨s', hs', htidy, t, ht, hio, hdone⟩ := hrun
  have hnone := Option.isNone_iff_eq_none.mp hio
  have hbefore : Meets (Turn.step (oneCore 2))
      (Turn.Admissible (oneCore 2) Reserve.nothing fun _ _ => False) [] onEmptyFile := trivial
  have hstart : run (Turn.step (oneCore 2)) [] onEmptyFile = .ok onEmptyFile := rfl
  have hothers : Others (oneCore 2).nvme ⟨fun x => x < 30000, fun _ _ => True⟩ onEmptyFile.driver :=
    others_start _ _ _
  have hown : ∀ k < 1024, (fun x => x < 30000) (8192 + k) := by
    intro k hk
    omega
  obtain ⟨s, hs, hall⟩ := write_impl_changes_only hv hbefore hstart blockInv_onEmptyFile
    (show 0 < (oneCore 2).nvme.nCore by decide) maxFiles_pos (show 3584 % 512 = 0 by decide)
    (show 3584 + 1024 ≤ maxBlocksPerFile * blockSize by simp [maxBlocksPerFile, blockSize]) (by decide) (show 1024 % 512 = 0 by decide)
    hown hothers
  rw [hs'] at hs
  cases hs
  exact ⟨s', t, hs', ht, hnone, hdone,
    (hall sharedTurns (orderly_of_tidy (fun _ hx => hx) htidy)).at_end ht hnone hdone⟩

/-- The call writes 100 bytes. -/
def partTurns : List Turn :=
  List.replicate 9 .next ++ [.driver (.exec 0 0 0), .driver (.post 0 0 0 plainCqe)]

/-- The drive's byte after them becomes what the buffer of the command held. -/
theorem part_of_sector_changes_rest : ∃ s' t, onEmptyFile.writeImpl 0 0 100 0 8192 = .ok s' ∧
    BlockInv onEmptyFile.fs.sb ∧
    Others (oneCore 2).nvme ⟨fun x => x < 30000, fun _ _ => True⟩ onEmptyFile.driver ∧
    Meets (Turn.step (oneCore 2)) (Turn.Orderly (oneCore 2) (fun x => x < 30000)
      (writeIo 0 0 100 0 8192)) partTurns s' ∧
    run (Turn.step (oneCore 2)) partTurns s' = .ok t ∧ t.io = none ∧ WritesDone (oneCore 2) onEmptyFile t ∧
      ¬ ChangesOnly (oneCore 2) onEmptyFile (writeIo 0 0 100 0 8192) t := by
  have hrun : ∃ s', onEmptyFile.writeImpl 0 0 100 0 8192 = .ok s' ∧
      (Meets (Turn.step (oneCore 2)) (Turn.Tidy (oneCore 2)) partTurns s' ∧
        ∃ t, run (Turn.step (oneCore 2)) partTurns s' = .ok t ∧ t.io.isNone ∧
          WritesDone (oneCore 2) onEmptyFile t ∧
          ¬ rangeAt 2 t.fs.sb 0 0 100 0 (byteAddr 2 t.fs.sb 0 100).2 ∧
          t.driver.disk 0 (byteAddr 2 t.fs.sb 0 100).2 = 0) := by
    decide +kernel
  obtain ⟨s', hs', htidy, t, ht, hio, hdone, hout, hzero⟩ := hrun
  refine ⟨s', t, hs', blockInv_onEmptyFile, others_start _ _ _, orderly_of_tidy (fun _ hx => hx) htidy, ht,
    Option.isNone_iff_eq_none.mp hio, hdone, fun h => ?_⟩
  have hthree : t.driver.disk 0 (byteAddr 2 t.fs.sb 0 100).2 = 3 := h.others 0 (show 0 < 2 by decide) _ hout
  rw [hzero] at hthree
  exact absurd hthree (by decide)

end Pthabt.Hook
