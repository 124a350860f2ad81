import Pthabt.Hook.FileLoop

/-! The requests of `read_impl` and `write_impl`. A read asks for bytes that the drives hold; a
write adds its bytes to those that the drives will hold, in a block that it may have mapped. -/

namespace Pthabt.Hook

open Lib Run Bytes Myfs Nvme

/-! ### The requests -/

section Request

variable {names : CString → Prop} {c : IoConfig} {s : System} {io : Io} {back : LoopPc}

theorem pc_request {o : DriverStep} {r : Request} (hon : o.on = .request r) (S : Driver) :
    ((o.next c.nvme S).queue (o.did c.nvme) (o.core c.nvme)).pc = .newSqe r := by
  have hport := congrArg (fun p : Port => p.queue.pc) (port_next c.nvme o S)
  rw [hon] at hport
  exact hport

/-- Where the ULT is when it has called `nvme_read_req` or `nvme_write_req`. -/
theorem inCall_request {o : DriverStep} {did rqK j lba : ℕ} (hd : did < c.nvme.nd)
    (hdid : o.did c.nvme = did) (hcore : o.core c.nvme = io.core)
    (hon : o.on = .request (ioRequest io.write lba io.blksz io.ioLen j io.buf))
    (hl : io.loop c = (back, some (.request rqK j))) (hidle : IdleQueues c io.core s.driver) :
    InCall c (o.next c.nvme s.driver) { io with call := .request did rqK back } := by
  refine ⟨hd, fun d hd' hne => ?_, j, lba, hl, ?_⟩
  · have hq : (o.next c.nvme s.driver).queue d io.core = s.driver.queue d io.core :=
      queue_next_of_ne c.nvme o s.driver fun he => hne (he.1.trans hdid)
    exact (congrArg Queue.pc hq).trans (hidle d hd')
  · have hpc := pc_request (c := c) hon s.driver
    rw [hdid, hcore] at hpc
    change ((o.next c.nvme s.driver).queue did io.core).pc.serves = _
    rw [hpc]
    rfl

/-- No queue has a request that could return. -/
theorem not_rings_of_idle (hidle : IdleQueues c io.core s.driver) {did : ℕ} (hd : did < c.nvme.nd)
    (q : Queue) : ¬ Rings (s.driver.queue did io.core) q := by
  rintro ⟨-, r, cid, hbell⟩
  rw [hidle did hd] at hbell
  cases hbell

theorem lt_of_readLen {size pos len j : ℕ} (h : j < readLen size pos len) : pos + j < size := by
  unfold readLen at h
  split_ifs at h <;> omega

/-- An offset in the block table is a small number. -/
theorem offset_mod {x : ℕ} (h : x < maxBlocksPerFile * blockSize) : x % 2 ^ 64 = x := by
  have hbs : blockSize = 2097152 := by simp [blockSize]
  have hmax : maxBlocksPerFile = 131072 := by simp [maxBlocksPerFile]
  rw [hbs, hmax] at h
  exact Nat.mod_eq_of_lt (by omega)

/-- The block that a call for writing maps. -/
theorem getLba_write (sb : Superblock numBlocks) (i : ℕ) {x : ℕ} (hx : x < maxBlocksPerFile * blockSize) :
    myfsGetLba sb i (x % 2 ^ 64) true = some (mapBlock sb i (x / blockSize),
      if ((mapBlock sb i (x / blockSize)).file i).block (x / blockSize) = inactiveBlock then none
      else some (lbaOf (((mapBlock sb i (x / blockSize)).file i).block (x / blockSize)) x)) := by
  obtain ⟨hib, hbmax⟩ := iBlock_of_lt hx
  rw [offset_mod hx, myfsGetLba_write _ _ hbmax, hib]

theorem block_lt {x : ℕ} (hx : x < maxBlocksPerFile * blockSize) : x / blockSize < maxBlocksPerFile := by
  obtain ⟨hib, hbmax⟩ := iBlock_of_lt hx
  exact hib ▸ hbmax

/-- In an open file, the block of an offset up to its end may be mapped. -/
theorem mapOffset {sb : Superblock numBlocks} {opened : ℕ → Option CString} {f : CString} {i x : ℕ}
    (h : Directory names sb opened) (hn : Distinguished names) (hf : opened i = some f)
    (hx : x < maxBlocksPerFile * blockSize) (hle : x ≤ (sb.file i).nBlock * blockSize)
    (hfree : (sb.file i).block (x / blockSize) = inactiveBlock → sb.free.rp ≠ sb.free.wp) :
    Directory names (mapBlock sb i (x / blockSize)) opened ∧
      x / blockSize < ((mapBlock sb i (x / blockSize)).file i).nBlock := by
  obtain ⟨hi, hname, hfn⟩ := h.opened i f hf
  have hbs : 0 < blockSize := by simp [blockSize]
  have hble : x / blockSize ≤ (sb.file i).nBlock := by
    rw [← Nat.mul_div_cancel (sb.file i).nBlock hbs]
    exact Nat.div_le_div_right hle
  have hnonempty : (sb.file i).name ≠ CString.empty := by
    rw [hname]
    exact hn.nonempty f hfn
  exact h.mapBlock hi (block_lt hx) hble hnonempty hfree

theorem System.request_read {sb : Superblock numBlocks} {lba rqK j : ℕ} (hw : io.write = false)
    (hint : j + io.blksz < 2 ^ 31)
    (hget : myfsGetLba s.fs.sb io.hookfd ((io.pos + j) % 2 ^ 64) false = some (sb, some lba)) :
    s.request c io rqK j back = .ok { s with
      fs := { s.fs with sb := sb }
      driver := (DriverStep.nvmeReadReq lba (numBlk io.blksz) io.core (reqLen io.blksz io.ioLen j)
        (io.buf + j)).next c.nvme s.driver
      io := some { io with call := .request (reqDid c.nvme.nd lba) rqK back } } := by
  simp only [System.request, if_pos hint, hw, hget, Bool.false_eq_true, if_false]

theorem System.request_write {sb : Superblock numBlocks} {lba rqK j : ℕ} (hw : io.write = true)
    (hint : j + io.blksz < 2 ^ 31)
    (hget : myfsGetLba s.fs.sb io.hookfd ((io.pos + j) % 2 ^ 64) true = some (sb, some lba)) :
    s.request c io rqK j back = .ok { s with
      fs := { s.fs with sb := sb }
      driver := (DriverStep.nvmeWriteReq lba (numBlk io.blksz) io.core (reqLen io.blksz io.ioLen j)
        (io.buf + j)).next c.nvme s.driver
      io := some { io with call := .request (reqDid c.nvme.nd lba) rqK back } } := by
  simp only [System.request, if_pos hint, hw, hget, if_true]

/-- A request of a read. -/
theorem FileInv.readRequest (h : FileInv names c s) (hv : c.Valid) (hio : s.io = some io)
    (hw : io.write = false) (hcall : io.call = .loop) {rqK j : ℕ}
    (hl : io.loop c = (back, some (.request rqK j))) :
    ∃ s', s.request c io rqK j back = .ok s' ∧ FileInv names c s' := by
  have hcalling := h.calling io hio
  have hlt := hcalling.core_lt
  have hinv := h.common.driver
  have hidle := hcalling.idle hcall
  obtain ⟨base, hread⟩ := h.read io hio hw
  obtain ⟨hpc, hj, -⟩ := readStep_request (Io.loop_read hl hw)
  have hblksz := Io.blksz_read hw
  have hmul : io.blksz ∣ j := by
    have hmul := hread.multiple
    rwa [hpc] at hmul
  -- the bytes of the request are below the size of the file
  obtain ⟨f, hf⟩ := hcalling.fd
  obtain ⟨hi, -, -⟩ := h.common.dir.opened _ f hf
  have hx : io.pos + j < (s.fs.sb.file io.hookfd).nBlock * blockSize := by
    have hj' := hj
    rw [hread.ioLen] at hj'
    exact lt_of_readLen hj'
  have hm := mapped_of_directory h.common.dir hi hx
  obtain ⟨hpos, hchunk⟩ := aligned_of_read hcalling.pos (hblksz ▸ hmul) hj
  rw [← hblksz] at hchunk
  have hlen : io.ioLen < 2 ^ 31 - 4096 := by
    rw [hread.ioLen]
    exact lt_of_le_of_lt (readLen_le _ _ _) hread.len_lt
  have hint : j + io.blksz < 2 ^ 31 := by
    rw [hblksz] at hmul ⊢
    exact step_of_read hj hmul hlen
  have hstep : 0 < io.blksz := by
    rw [hblksz]
    exact readBlksz_pos _ (by omega)
  -- the request
  set lba := lbaOf ((s.fs.sb.file io.hookfd).block ((io.pos + j) / blockSize)) (io.pos + j) with hlba
  have hget : myfsGetLba s.fs.sb io.hookfd ((io.pos + j) % 2 ^ 64) false =
      some (s.fs.sb, some lba) := by
    rw [offset_mod hm.2.1]
    exact getLba_of_mapped hm false
  have hd : reqDid c.nvme.nd lba < c.nvme.nd := Nat.mod_lt _ hv.nvme.nd_pos
  set o := DriverStep.nvmeReadReq lba (numBlk io.blksz) io.core (reqLen io.blksz io.ioLen j)
    (io.buf + j) with ho
  have hon : o.on = .request (ioRequest io.write lba io.blksz io.ioLen j io.buf) := by
    rw [hw]
    rfl
  have hA : o.Admissible c.nvme s.driver := by
    refine ⟨hd, hlt, ⟨hidle _ hd, ?_⟩, fun rid hrid => by rw [ho] at hrid; cases hrid⟩
    have hfits : (ioRequest false lba io.blksz io.ioLen j io.buf).Fits :=
      ioRequest_fits hchunk.2 hread.buf
    exact hfits
  have hjob : ∀ r, o.on = .request r →
      ReadJob (c.nvme.qp (o.did c.nvme) io.core) (wanted c s io) (s.driver.disk (o.did c.nvme)) r := by
    intro r hr
    cases hr
    exact readJob_of_chunk ((inRange_of_inv h.common.dir.inv).inBlock hm) hpos hstep hchunk s.driver.disk hlba rfl
  refine ⟨_, System.request_read hw hint hget, h.of_io hio (hinv.next hv.nvme hA) h.common.dir hcalling.rids
    (inCall_request hd rfl rfl hon hl hidle) (fun _ => ?_) fun hw' => ?_⟩
  · have hdata := hread.data.next hinv hv.nvme hv.addressed hlt hA rfl hjob
      (fun did hd => not_rings_of_idle hidle hd _) (.request (reqDid c.nvme.nd lba) rqK back)
    have hdisk := (hread.data.reading.next hinv hv.nvme hv.addressed hA rfl hjob).2.1
    exact ⟨base, hread.goesOn hdisk hread.multiple hdata⟩
  · exact absurd (hw.symm.trans hw') Bool.false_ne_true

theorem reqLen_of_le {step len j : ℕ} (h : j + step ≤ len) : reqLen step len j = step := by
  unfold reqLen
  split_ifs <;> omega

/-- Chunks lie within blocks. -/
theorem chunk_in_block {q step n : ℕ} (hq : q % 512 = 0)
    (hchunk : q / 512 % raidFactor + numBlk step ≤ raidFactor) (hwhole : numBlk step * 512 = step)
    (hb : q / blockSize < n) : q + step ≤ n * blockSize := by
  have hbs : blockSize = 2097152 := by simp [blockSize]
  rw [raidFactor_eq] at hchunk
  rw [hbs] at hb ⊢
  have hlast : q + step ≤ (q / 2097152 + 1) * 2097152 := by omega
  exact hlast.trans (Nat.mul_le_mul_right _ hb)

/-- A request of a write adds its bytes to those that the drives will hold. -/
theorem recorded_request {nd i b p j step e did start buf : ℕ} {sb : Superblock numBlocks}
    {opened : ℕ → Option CString} {f : CString} {content : CString → ℕ → Option Byte}
    {Y : ℕ → ℕ → Byte} {user : ℕ → Byte} (hdir : Directory names sb opened)
    (hdir' : Directory names (mapBlock sb i b) opened) (hi : i < maxFiles)
    (hname : (sb.file i).name = f)
    (hrec : Recorded nd sb content Y fun g x => g = f ∧ p + j ≤ x ∧ x < e)
    (hbytes : ∀ k < step, byteAddr nd (mapBlock sb i b) i (p + (j + k)) = (did, start + k))
    (hend : p + (j + step) ≤ ((mapBlock sb i b).file i).nBlock * blockSize)
    (hkept : ∀ k < step, content f (p + (j + k)) = some (user (buf + k))) :
    Recorded nd (mapBlock sb i b) content (Function.update Y did (blit (Y did) user start buf step))
      fun g x => g = f ∧ p + (j + step) ≤ x ∧ x < e := by
  intro g x y hcont hskip
  by_cases hin : g = f ∧ p + j ≤ x ∧ x < p + (j + step)
  · obtain ⟨rfl, hle, hlt⟩ := hin
    obtain ⟨k, rfl⟩ := Nat.exists_eq_add_of_le hle
    have hk : k < step := by omega
    rw [Nat.add_assoc] at hcont hlt ⊢
    rw [hkept k hk] at hcont
    obtain rfl := Option.some.inj hcont
    refine ⟨i, hi, (mapBlock_name ..).trans hname, lt_of_lt_of_le hlt hend, ?_⟩
    rw [hbytes k hk, byteOn, Function.update_self]
    exact blit_at _ _ hk
  · obtain ⟨k, hk, hkname, hx, hbyte⟩ := hrec g x y hcont fun hs =>
      hskip ⟨hs.1, by by_contra hlt; exact hin ⟨hs.1, hs.2.1, by omega⟩, hs.2.2⟩
    have hm := mapped_of_directory hdir hk hx
    have hx' := lt_of_lt_of_le hx (Nat.mul_le_mul_right blockSize (mapBlock_nBlock_le sb i b k))
    refine ⟨k, hk, (mapBlock_name ..).trans hkname, hx', ?_⟩
    rw [byteAddr_mapBlock hm]
    by_cases hdid : (byteAddr nd sb k x).1 = did
    · have hout : ¬ (start ≤ (byteAddr nd sb k x).2 ∧ (byteAddr nd sb k x).2 < start + step) := by
        rintro ⟨hle, hlt⟩
        obtain ⟨l, hl⟩ := Nat.exists_eq_add_of_le hle
        have haddr : byteAddr nd (mapBlock sb i b) k x = byteAddr nd (mapBlock sb i b) i (p + (j + l)) := by
          rw [hbytes l (by omega), byteAddr_mapBlock hm]
          exact Prod.ext hdid hl
        obtain ⟨rfl, rfl⟩ := byteAddr_inj (inRange_of_inv hdir'.inv) (mappedOnce_of_inv hdir'.inv)
          (mapped_of_directory hdir' hk hx')
          (mapped_of_directory hdir' hi (lt_of_lt_of_le (by omega) hend)) haddr
        exact hin ⟨hkname.symm.trans hname, by omega, by omega⟩
      rw [byteOn, hdid, Function.update_self, blit_outside _ _ (by omega), ← hdid]
      exact hbyte
    · rw [byteOn, Function.update_of_ne hdid]
      exact hbyte

/-- A request of a write. -/
theorem FileInv.writeRequest (h : FileInv names c s) (hn : Distinguished names) (hv : c.Valid)
    (hio : s.io = some io) (hw : io.write = true) (hcall : io.call = .loop) {rqK j : ℕ}
    (hl : io.loop c = (back, some (.request rqK j))) (hring : s.RingLasts c) :
    ∃ s', s.request c io rqK j back = .ok s' ∧ FileInv names c s' := by
  have hcalling := h.calling io hio
  have hlt := hcalling.core_lt
  have hinv := h.common.driver
  have hdir := h.common.dir
  have hidle := hcalling.idle hcall
  obtain ⟨Y, base, hwr⟩ := h.write io hio hw
  have hlw := Io.loop_write hl hw
  obtain ⟨hpc, -⟩ := writeStep_request hlw
  have hblksz := Io.blksz_write hw
  obtain ⟨hj, hprog, hle, -⟩ := progress_request hwr.loop (hwr.blksz_dvd hw) hlw
  have hmul : io.blksz ∣ j := by
    have hloop := hwr.loop
    rw [hpc] at hloop
    exact hloop.1
  have hreq : io.requested = j := by
    unfold Io.requested
    rw [hcall]
    exact hj.symm
  have hgrown := hwr.grown
  rw [hreq] at hgrown
  -- the block of the request
  obtain ⟨f, hf⟩ := hcalling.fd
  obtain ⟨hi, hname, -⟩ := hdir.opened _ f hf
  have hstep : 0 < io.blksz := by
    rw [hblksz]
    exact writeBlksz_pos _ _
  have hroom : io.pos + j < maxBlocksPerFile * blockSize := lt_of_lt_of_le (by omega) hwr.room
  obtain ⟨hdir', hb⟩ := mapOffset hdir hn hf hroom hgrown (hring io rqK j back hio hcall hl hw)
  set b := (io.pos + j) / blockSize with hbdef
  set sb := mapBlock s.fs.sb io.hookfd b with hsb
  obtain ⟨hpos, hwhole, hchunk⟩ := aligned_of_write hcalling.pos (hblksz ▸ hmul)
  rw [← hblksz] at hwhole hchunk
  have hend : io.pos + j + io.blksz ≤ (sb.file io.hookfd).nBlock * blockSize :=
    chunk_in_block hpos hchunk.1 hwhole hb
  have hm : Mapped sb io.hookfd (io.pos + j) := mapped_of_directory hdir' hi (by omega)
  -- the request
  set lba := lbaOf ((sb.file io.hookfd).block b) (io.pos + j) with hlba
  have hget : myfsGetLba s.fs.sb io.hookfd ((io.pos + j) % 2 ^ 64) true = some (sb, some lba) := by
    rw [getLba_write _ _ hroom, if_neg hm.2.2]
  have hint : j + io.blksz < 2 ^ 31 := by
    have hlen := hwr.len_lt
    omega
  have hd : reqDid c.nvme.nd lba < c.nvme.nd := Nat.mod_lt _ hv.nvme.nd_pos
  set did := reqDid c.nvme.nd lba with hdid
  set o := DriverStep.nvmeWriteReq lba (numBlk io.blksz) io.core (reqLen io.blksz io.ioLen j)
    (io.buf + j) with ho
  have hon : o.on = .request (ioRequest io.write lba io.blksz io.ioLen j io.buf) := by
    rw [hw]
    rfl
  have hA : o.Admissible c.nvme s.driver := by
    refine ⟨hd, hlt, ⟨hidle _ hd, ?_⟩, fun rid hrid => by rw [ho] at hrid; cases hrid⟩
    exact ⟨(reqLen_le _ _ _).trans ((step_le_numBlk _).trans hchunk.2), fun hfalse => by cases hfalse⟩
  have hreq' : Io.requested { io with call := .request did rqK back } = j + io.blksz := hprog
  obtain ⟨hbytes, hjob⟩ := writeJob_of_chunk (c := c.nvme) io.core io.buf
    ((inRange_of_inv hdir'.inv).inBlock hm) hpos hstep hwhole hle hchunk hlba hdid
  have hold : ∀ k < j, byteAddr c.nvme.nd sb io.hookfd (io.pos + k) =
      byteAddr c.nvme.nd s.fs.sb io.hookfd (io.pos + k) :=
    fun k hk => byteAddr_mapBlock (mapped_of_directory hdir hi (by omega))
  have hwriting := hwr.writing
  rw [hreq] at hwriting
  obtain ⟨hwriting', huser⟩ := hwriting.request hd rfl rfl hon (hidle _ hd)
    (B := rangeAt c.nvme.nd sb io.hookfd io.pos (j + io.blksz))
    (fun d a ⟨k, hk, haddr⟩ => ⟨k, by omega, (hold k hk).trans haddr⟩) (hw ▸ hjob)
    (fun a ha => by
      have hlast : a < reqCdw10 c.nvme.nd lba * 512 + numBlk io.blksz * 512 := ha.2
      exact not_rangeAt_of_chunk (inRange_of_inv hdir'.inv) (mappedOnce_of_inv hdir'.inv) hold
        (fun k hk => mapped_of_directory hdir' hi (by omega))
        (fun k hk => mapped_of_directory hdir' hi (by omega)) hbytes ha.1 (by omega))
  have hlen : (ioRequest io.write lba io.blksz io.ioLen j io.buf).len = io.blksz := reqLen_of_le hle
  rw [hlen] at hwriting'
  refine ⟨_, System.request_write hw hint hget, h.of_io hio (hinv.next hv.nvme hA) hdir' hcalling.rids
    (inCall_request hd rfl rfl hon hl hidle) (fun hw' => ?_) fun _ => ?_⟩
  · exact absurd (hw'.symm.trans hw) Bool.false_ne_true
  · refine ⟨Function.update Y did (blit (Y did) s.driver.user (reqCdw10 c.nvme.nd lba * 512)
      (io.buf + j) io.blksz), base, hwr.len_lt, hwr.whole, hwr.room, ?_, hwr.loop,
      fun g hg k hk => ?_, fun g hg => ?_, ?_⟩
    · rw [hreq']
      change io.pos + (j + io.blksz) ≤ (sb.file io.hookfd).nBlock * blockSize
      omega
    · dsimp only
      rw [huser]
      exact hwr.kept g hg k hk
    · obtain rfl : f = g := Option.some.inj (hf.symm.trans hg)
      have hrec := hwr.recorded f hf
      unfold Io.skip at hrec
      rw [hreq] at hrec
      unfold Io.skip
      rw [hreq']
      rw [Nat.add_assoc] at hend
      exact recorded_request hdir hdir' hi hname hrec hbytes hend fun k hk => by
        have hkept := hwr.kept f hf (j + k) (by omega)
        rw [← Nat.add_assoc io.buf] at hkept
        exact hkept
    · rw [hreq']
      exact hwriting'

end Request

end Pthabt.Hook
