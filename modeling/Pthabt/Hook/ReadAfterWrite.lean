import Pthabt.Hook.FileRequest

/-! What a read returns of a file is what was written to it last, in any run of `myfs_open`,
`write_impl`, `read_impl`, `myfs_close` and `myfs_unlink` and with any answers of the drives. -/

namespace Pthabt.Hook

open Lib Run Bytes Myfs Nvme

/-! ### The end of a call -/

section Return

variable {names : CString → Prop} {c : IoConfig} {s : System} {io : Io}

/-- At its end a loop is in no call. -/
theorem Calling.idle_of_done (h : Calling c s io) (hpc : io.pc = .done) :
    io.call = .loop ∧ IdleQueues c io.core s.driver := by
  have hl : io.loop c = (.done, none) := by
    rw [Io.loop, hpc]
    split_ifs <;> rfl
  have hin := h.call
  unfold InCall at hin
  cases hcall : io.call with
  | loop =>
    rw [hcall] at hin
    exact ⟨rfl, hin⟩
  | request did rqK back =>
    rw [hcall] at hin
    obtain ⟨-, -, j, lba, hloop, -⟩ := hin
    rw [hl] at hloop
    cases hloop
  | test again k back =>
    rw [hcall] at hin
    have hloop := hin.2
    rw [hl] at hloop
    cases hloop
  | poll k back =>
    rw [hcall] at hin
    have hloop := hin.1
    rw [hl] at hloop
    cases hloop

/-- All requests of a read that has come to its end were consumed. -/
theorem ReadData.consumed {X : ℕ → Byte} {base : ℕ → ℕ} {S : Driver} (h : ReadData c X base S io)
    (hinv : DriverInv c.nvme S) (hlt : io.core < c.nvme.nCore) (hidle : IdleQueues c io.core S)
    (hpc : io.pc = .done) {did i : ℕ} (hd : did < c.nvme.nd) (hi : i < (S.queue did io.core).issued)
    (hb : base did ≤ i) : ((S.queue did io.core).cmd i).stage = .consumed := by
  have hret := (hinv did hd _ hlt).returned (hidle did hd) hi
  refine (h.awaited did hd i hi hb hret).resolve_right ?_
  rintro ⟨k, hk, -⟩
  rw [hpc] at hk
  exact hk

theorem lt_reqLen {step len j k : ℕ} (hk : k < step) (h : j + k < len) : k < reqLen step len j := by
  unfold reqLen
  split_ifs <;> omega

/-- What a read puts into its buffer. -/
theorem FileInv.readBack (h : FileInv names c s) (hn : Distinguished names) : s.ReadBack := by
  intro io f hio hw hpc hf k hk b hcont
  have hcalling := h.calling io hio
  obtain ⟨-, hidle⟩ := hcalling.idle_of_done hpc
  obtain ⟨base, hread⟩ := h.read io hio hw
  obtain ⟨hi, hname, hfn⟩ := h.common.dir.opened _ f hf
  obtain ⟨i, hi', hname', hx, hbyte⟩ := hread.recorded f _ b hcont id
  obtain rfl := h.common.dir.eq_of_name hn hfn hi' hi hname' hname
  have hklen : k < io.ioLen := by
    rw [hread.ioLen]
    exact lt_readLen hk hx
  have hstep : 0 < io.blksz := by
    rw [Io.blksz, hw]
    exact readBlksz_pos _ (by omega)
  -- the request that the byte is part of
  have hj : k / io.blksz * io.blksz ≤ k := Nat.div_mul_le_self k io.blksz
  have hlt : k - k / io.blksz * io.blksz < io.blksz := by
    rw [← Nat.mod_eq_sub_div_mul]
    exact Nat.mod_lt k hstep
  obtain ⟨did, hd, l, hl, hb, hbuf, hlen⟩ := hread.data.covered (k / io.blksz * io.blksz)
    (Nat.dvd_mul_left _ _) (by rw [hpc]; exact lt_of_le_of_lt hj hklen) (lt_of_le_of_lt hj hklen)
  have hs := hread.data.consumed h.common.driver hcalling.core_lt hidle hpc hd hl hb
  have hbrought := hread.data.brought h.common.driver hcalling.core_lt hd hl hb hs
    (k := k - k / io.blksz * io.blksz) (by rw [hlen]; exact lt_reqLen hlt (by omega))
  have haddr : io.buf + k / io.blksz * io.blksz + (k - k / io.blksz * io.blksz) = io.buf + k := by omega
  rw [hbuf, haddr] at hbrought
  rw [hbrought, wanted, wantedAt, Nat.add_sub_cancel_left]
  exact hbyte

/-- `read_impl` or `write_impl` returns. -/
theorem FileInv.return_ (h : FileInv names c s) (hio : s.io = some io) (hpc : io.pc = .done) :
    FileInv names c { s with fs := myfsDecrementRef s.fs io.hookfd, io := none } := by
  have hcalling := h.calling io hio
  obtain ⟨hcall, hidle⟩ := hcalling.idle_of_done hpc
  obtain ⟨f, hf⟩ := hcalling.fd
  obtain ⟨hi, -, -⟩ := h.common.dir.opened _ f hf
  have hstate := h.common.states _ hi
  have hone : refs s.io io.hookfd = 1 := by
    rw [hio]
    exact if_pos rfl
  rw [hone] at hstate
  have hdec := decrementRef_of_last hstate
  have hsb : (myfsDecrementRef s.fs io.hookfd).sb = s.fs.sb := by rw [hdec]; rfl
  refine .of_resting ⟨h.common.driver, ?_, ?_⟩ rfl ?_
  · dsimp only
    rw [hsb]
    exact h.common.dir
  · intro i hi
    dsimp only
    rw [hdec]
    by_cases he : i = io.hookfd
    · rw [he, Fs.setState_self]
      rfl
    · rw [Fs.setState_of_ne _ _ he, h.common.states i hi, hio, refs, if_neg fun hc => he hc.symm]
      rfl
  · cases hw : io.write with
    | false =>
      obtain ⟨base, hread⟩ := h.read io hio hw
      have hsettled := hread.data.reading.settled hidle fun did hd i hi hb =>
        hread.data.consumed h.common.driver hcalling.core_lt hidle hpc hd hi hb
      refine ⟨io.core, _, _, _, hcalling.core_lt, writing_of_settled hsettled hcalling.core_lt, hidle, ?_⟩
      dsimp only
      rw [hsb]
      exact hread.recorded
    | true =>
      obtain ⟨Y, base, hwr⟩ := h.write io hio hw
      refine ⟨io.core, _, Y, base, hcalling.core_lt, hwr.writing, hidle, ?_⟩
      dsimp only
      rw [hsb]
      intro g x b hcont _
      refine hwr.recorded f hf g x b hcont ?_
      rintro ⟨-, hle, hlt⟩
      unfold Io.requested at hle
      rw [hcall, hpc] at hle
      exact absurd hlt (Nat.not_lt_of_le hle)

end Return

/-! ### The program -/

section Program

variable {names : CString → Prop} {c : IoConfig} {s : System}

/-- When all commands were completed, the drives hold what was written. -/
theorem FileInv.settled (h : FileInv names c s) (hv : c.Valid) (hq : s.Quiet c) :
    (∀ did < c.nvme.nd, ∀ k < c.nvme.nCore, Settled (s.driver.queue did k)) ∧
      Recorded c.nvme.nd s.fs.sb s.content s.driver.disk fun _ _ => False := by
  obtain ⟨hio, hdone⟩ := hq
  obtain ⟨core, A, Y, base, hr⟩ := h.resting hio
  obtain ⟨hsettled, hdisk⟩ := hr.writing.settled hr.idle hdone hr.core_lt
  refine ⟨hsettled, fun f x b hcont hskip => ?_⟩
  obtain ⟨i, hi, hname, hx, hbyte⟩ := hr.recorded f x b hcont hskip
  have hd : (byteAddr c.nvme.nd s.fs.sb i x).1 < c.nvme.nd := Nat.mod_lt _ hv.nvme.nd_pos
  refine ⟨i, hi, hname, hx, ?_⟩
  rw [byteOn, hdisk _ hd]
  exact hbyte

/-- Between two calls, when all commands were completed. -/
theorem FileInv.of_settled (hv : c.Valid) (hcommon : Common names c s) (hio : s.io = none)
    (hsettled : ∀ did < c.nvme.nd, ∀ k < c.nvme.nCore, Settled (s.driver.queue did k))
    (hrec : Recorded c.nvme.nd s.fs.sb s.content s.driver.disk fun _ _ => False) :
    FileInv names c s :=
  .of_resting hcommon hio ⟨0, _, _, _, hv.nvme.nCore_pos,
    writing_of_settled hsettled hv.nvme.nCore_pos,
    fun did hd => (hsettled did hd 0 hv.nvme.nCore_pos).idle, hrec⟩

theorem states_of_quiet (h : Common names c s) (hq : s.Quiet c) :
    ∀ i < maxFiles, s.fs.states i = ⟨⟨(s.opened i).isSome, false⟩, 0⟩ := by
  intro i hi
  rw [h.states i hi, hq.1]
  rfl

/-- `myfs_open` of a file that is closed. -/
theorem FileInv.openFile (h : FileInv names c s) (hn : Distinguished names) (hv : c.Valid)
    (hq : s.Quiet c) {f : CString} (hf : names f) (hclosed : ∀ fd < maxFiles, s.opened fd ≠ some f)
    (hcan : CanOpen s.fs.sb f) : ∃ s', s.openFile f = .ok s' ∧ FileInv names c s' := by
  obtain ⟨hsettled, hrec⟩ := h.settled hv hq
  obtain ⟨fs, i, hopen⟩ := myfsOpen_isSome.mpr hcan
  have ho := myfsOpen_eq_some.mp hopen
  obtain ⟨hdir, hi, hnone, hren⟩ := h.common.dir.open_ hn hf ho fun d hd =>
    hclosed d (h.common.dir.opened d f hd).1 hd
  have hstates := states_of_quiet h.common hq
  refine ⟨{ s with fs := fs, opened := Function.update s.opened i (some f) },
    by rw [System.openFile, hopen], .of_settled hv ⟨h.common.driver, hdir, fun k hk => ?_⟩ hq.1
      hsettled fun g x b hcont hskip => ?_⟩
  · dsimp only
    rw [hq.1, openResult_states ho]
    by_cases he : k = i
    · rw [if_pos he, he, Function.update_self, hstates i hi]
      rfl
    · rw [if_neg he, Function.update_of_ne he]
      exact hstates k hk
  · obtain ⟨k, hk, hname, hx, hbyte⟩ := hrec g x b hcont hskip
    refine ⟨k, hk, ?_, ?_, ?_⟩
    · dsimp only
      by_cases he : k = i
      · rw [he] at hname hx ⊢
        rw [hren.new]
        rcases hren.old with hold | hold
        · exact hold.symm.trans hname
        · rw [h.common.dir.unused i hi hold] at hx
          omega
      · rw [hren.name k he]
        exact hname
    · dsimp only
      rw [hren.nBlock k hk]
      exact hx
    · unfold byteAddr
      dsimp only
      rw [hren.block]
      exact hbyte

theorem FileInv.closeFile (h : FileInv names c s) (hv : c.Valid) (hq : s.Quiet c) {fd : ℕ}
    (hopen : s.opened fd ≠ none) : FileInv names c (s.closeFile fd) := by
  obtain ⟨hsettled, hrec⟩ := h.settled hv hq
  have hstates := states_of_quiet h.common hq
  obtain ⟨f, hf⟩ := Option.ne_none_iff_exists'.mp hopen
  obtain ⟨hi, -, -⟩ := h.common.dir.opened fd f hf
  refine .of_settled hv ⟨h.common.driver, h.common.dir.close fd, fun i hi => ?_⟩ hq.1 hsettled hrec
  change (Myfs.myfsClose s.fs fd).states i =
    ⟨⟨(Function.update s.opened fd none i).isSome, false⟩, refs s.io i⟩
  rw [close_states, hq.1]
  by_cases he : i = fd
  · rw [if_pos he, he, Function.update_self, hstates fd (he ▸ hi), hf]
    rfl
  · rw [if_neg he, Function.update_of_ne he]
    exact hstates i hi

theorem FileInv.unlinkFile (h : FileInv names c s) (hn : Distinguished names) (hv : c.Valid)
    (hq : s.Quiet c) {f : CString} (hf : names f) (hclosed : ∀ fd < maxFiles, s.opened fd ≠ some f) :
    FileInv names c (s.unlinkFile f) := by
  obtain ⟨hsettled, hrec⟩ := h.settled hv hq
  have hstates := states_of_quiet h.common hq
  have hrc : ∀ i < maxFiles, (s.fs.states i).refCount = 0 := fun i hi => by rw [hstates i hi]
  have hclosed : ∀ d, s.opened d ≠ some f := fun d hd =>
    hclosed d (h.common.dir.opened d f hd).1 hd
  have hfile := fun i hi => h.common.dir.unlink_file hn hf hrc (i := i) hi
  refine .of_settled hv ⟨h.common.driver, h.common.dir.unlink hn hf hrc hclosed, fun i hi => ?_⟩ hq.1
    hsettled fun g x b hcont hskip => ?_
  · change (Myfs.myfsUnlink s.fs f).states i = ⟨⟨(s.opened i).isSome, false⟩, refs s.io i⟩
    rw [myfsUnlink_states _ _ hi, hq.1, if_pos (hrc i hi)]
    split_ifs with hm
    · have hname := (h.common.dir.nameMatches_iff hn hf hi).mp hm
      cases ho : s.opened i with
      | none => rfl
      | some g =>
        obtain ⟨-, hg, -⟩ := h.common.dir.opened i g ho
        exact absurd (ho.trans (congrArg some (hg.symm.trans hname))) (hclosed i)
    · exact hstates i hi
  · have hcont : Function.update s.content f (fun _ => none) g x = some b := hcont
    by_cases hg : g = f
    · rw [hg, Function.update_self] at hcont
      cases hcont
    · rw [Function.update_of_ne hg] at hcont
      obtain ⟨k, hk, hname, hx, hbyte⟩ := hrec g x b hcont hskip
      have hsame : (Myfs.myfsUnlink s.fs f).sb.file k = s.fs.sb.file k := by
        rw [hfile k hk, if_neg fun he => hg (hname.symm.trans he)]
      refine ⟨k, hk, ?_, ?_, ?_⟩
      · exact (congrArg File.name hsame).trans hname
      · change x < ((Myfs.myfsUnlink s.fs f).sb.file k).nBlock * blockSize
        rw [hsame]
        exact hx
      · have haddr : byteAddr c.nvme.nd (Myfs.myfsUnlink s.fs f).sb k x =
            byteAddr c.nvme.nd s.fs.sb k x := by
          rw [byteAddr, byteAddr, hsame]
        exact (congrArg (byteOn s.driver.disk) haddr).trans hbyte

theorem FileInv.store (h : FileInv names c s) (hio : s.io = none) (user : ℕ → Byte) :
    FileInv names c { s with driver := { s.driver with user := user } } := by
  obtain ⟨core, A, Y, base, hr⟩ := h.resting hio
  exact .of_resting ⟨h.common.driver, h.common.dir, h.common.states⟩ hio ⟨core, A, Y, base, hr.core_lt,
    hr.writing.store h.common.driver hr.core_lt hr.idle user, hr.idle, hr.recorded⟩

/-- The reference count while a call is in progress. -/
theorem states_increment {fd : ℕ} {f : CString} (h : Common names c s) (hq : s.Quiet c)
    (hf : s.opened fd = some f) : (myfsIncrementRef s.fs fd).1 = s.fs.setState fd ⟨⟨true, false⟩, 1⟩ := by
  refine incrementRef_of_opened ?_
  rw [states_of_quiet h hq fd (h.dir.opened fd f hf).1, hf]
  rfl

/-- The table of files and the reference counts when a call begins. -/
theorem Common.begin_ (h : Common names c s) (hq : s.Quiet c) (io : Io) {f : CString}
    (hf : s.opened io.hookfd = some f) (content : CString → ℕ → Option Byte) :
    Common names c { s with
      fs := s.fs.setState io.hookfd ⟨⟨true, false⟩, 1⟩
      io := some io
      content := content } := by
  refine ⟨h.driver, h.dir, fun i hi => ?_⟩
  dsimp only
  by_cases he : i = io.hookfd
  · rw [he, Fs.setState_self, hf, refs, if_pos rfl]
    rfl
  · rw [Fs.setState_of_ne _ _ he, refs, if_neg fun hc => he hc.symm]
    exact states_of_quiet h hq i hi

theorem FileInv.readImpl (h : FileInv names c s) (hv : c.Valid) (hq : s.Quiet c)
    {core hookfd len pos buf : ℕ} (hopen : s.opened hookfd ≠ none) (hcore : core < c.nvme.nCore)
    (hpos : pos % 512 = 0) (hlen : len < 2 ^ 31 - 4096) (hbuf : buf ≠ 0) :
    ∃ s', s.readImpl core hookfd len pos buf = .ok s' ∧ FileInv names c s' := by
  obtain ⟨hsettled, hrec⟩ := h.settled hv hq
  obtain ⟨f, hf⟩ := Option.ne_none_iff_exists'.mp hopen
  have hi := (h.common.dir.opened _ f hf).1
  have hsize := getSize_of_le (h.common.dir.nBlock_le hi)
  set io : Io := ⟨false, core, hookfd, len, pos, buf,
    readLen ((s.fs.sb.file hookfd).nBlock * blockSize) pos len, fun _ => 0, .outer 0, .loop⟩ with hio
  have hinc := states_increment h.common hq hf
  refine ⟨{ s with fs := s.fs.setState hookfd ⟨⟨true, false⟩, 1⟩, io := some io }, ?_,
    h.common.begin_ hq io hf s.content, (fun hn => by cases hn), ?_, ?_, ?_⟩
  · simp only [System.readImpl, hinc, if_pos hpos, Fs.setState_sb, hsize, hio]
  · intro io' hio'
    cases hio'
    exact ⟨hcore, hpos, ⟨f, hf⟩, fun k hk => hk.elim,
      fun did hd => (hsettled did hd core hcore).idle⟩
  · intro io' hio' hw
    cases hio'
    refine ⟨fun did => (s.driver.queue did core).issued, hbuf, hlen, rfl, Nat.dvd_zero _, hrec,
      h.common.driver.reading hsettled hcore _, ?_, ?_⟩
    · exact fun did hd i hi hb => absurd hi (Nat.not_lt_of_le hb)
    · exact fun j _ hj => absurd hj (Nat.not_lt_zero j)
  · intro io' hio' hw
    cases hio'
    cases hw

theorem FileInv.writeImpl (h : FileInv names c s) (hv : c.Valid) (hq : s.Quiet c)
    {core hookfd len pos buf : ℕ} (hopen : s.opened hookfd ≠ none) (hcore : core < c.nvme.nCore)
    (hpos : pos % 512 = 0) (hwhole : len % 512 = 0) (hlen : len < 2 ^ 31 - 4096)
    (hgrown : pos ≤ (s.fs.sb.file hookfd).nBlock * blockSize)
    (hroom : pos + len ≤ maxBlocksPerFile * blockSize) :
    ∃ s', s.writeImpl core hookfd len pos buf = .ok s' ∧ FileInv names c s' := by
  obtain ⟨hsettled, hrec⟩ := h.settled hv hq
  obtain ⟨f, hf⟩ := Option.ne_none_iff_exists'.mp hopen
  set io : Io := ⟨true, core, hookfd, len, pos, buf, len, fun _ => 0, .outer 0, .loop⟩ with hio
  have hinc := states_increment h.common hq hf
  refine ⟨{ s with
      fs := s.fs.setState hookfd ⟨⟨true, false⟩, 1⟩
      io := some io
      content := Function.update s.content f (overlay (s.content f) pos len buf s.driver.user) }, ?_,
    h.common.begin_ hq io hf _, (fun hn => by cases hn), ?_, ?_, ?_⟩
  · simp only [System.writeImpl, hinc, if_pos hpos, hf, hio]
  · intro io' hio'
    cases hio'
    exact ⟨hcore, hpos, ⟨f, hf⟩, fun k hk => hk.elim,
      fun did hd => (hsettled did hd core hcore).idle⟩
  · intro io' hio' hw
    cases hio'
    cases hw
  · intro io' hio' hw
    cases hio'
    have hwriting := writing_of_settled hsettled hcore
    refine ⟨s.driver.disk, fun did => (s.driver.queue did core).issued, hlen,
      Nat.dvd_of_mod_eq_zero hwhole, hroom, hgrown, ⟨Nat.dvd_zero _, Nat.zero_le _⟩,
      fun g hg k hk => ?_, fun g hg x y b hcont hskip => ?_, ?_⟩
    · obtain rfl : f = g := Option.some.inj (hf.symm.trans hg)
      have hin : pos ≤ pos + k ∧ pos + k < pos + len := ⟨Nat.le_add_right _ _, Nat.add_lt_add_left hk _⟩
      dsimp only
      rw [Function.update_self, overlay, if_pos hin, Nat.add_sub_cancel_left]
    · obtain rfl : f = g := Option.some.inj (hf.symm.trans hg)
      refine hrec x y b ?_ id
      have hcont : Function.update s.content f (overlay (s.content f) pos len buf s.driver.user) x y =
          some b := hcont
      by_cases hx : x = f
      · rw [hx, Function.update_self, overlay,
          if_neg fun hin => hskip ⟨hx, hin.1, hin.2⟩] at hcont
        rw [hx]
        exact hcont
      · rwa [Function.update_of_ne hx] at hcont
    · refine ⟨fun did hd => ?_, hwriting.rest⟩
      obtain ⟨hw, hask, hpend⟩ := hwriting.phase did hd
      refine ⟨⟨hw.base_le, hw.old, ?_, hw.source, hw.ready⟩, ?_, hpend⟩
      · exact fun i hi hb => (hw.job i hi hb).mono fun _ => False.elim
      · exact fun r hr => (hask r hr).imp_left fun hj => hj.mono fun _ => False.elim

/-- The next step of the ULT. -/
theorem FileInv.next (h : FileInv names c s) (hn : Distinguished names) (hv : c.Valid)
    (hring : s.RingLasts c) : ∃ s', s.next c = .ok s' ∧ FileInv names c s' := by
  unfold System.next
  cases hio : s.io with
  | none => exact ⟨s, rfl, h⟩
  | some io =>
    dsimp only
    cases hcall : io.call with
    | request did rqK back => exact ⟨_, rfl, h.inRequest hv hio hcall⟩
    | test again k back => exact h.test hv hio hcall
    | poll k back => exact ⟨_, rfl, h.poll hv hio hcall⟩
    | loop =>
      dsimp only
      unfold System.loop
      by_cases hpc : io.pc = .done
      · rw [if_pos hpc]
        exact ⟨_, rfl, h.return_ hio hpc⟩
      · rw [if_neg hpc]
        have hidle : IdleQueues c io.core s.driver := by
          have hin := (h.calling io hio).call
          unfold InCall at hin
          rwa [hcall] at hin
        have hreq : io.requested = progress io.ioLen io.pc := by
          unfold Io.requested
          rw [hcall]
        cases hl : io.loop c with
        | mk back act =>
          cases act with
          | none =>
            have hawait : ∀ k, Awaited io.pc k ↔ Awaited back k := by
              cases hw : io.write with
              | false => exact (readStep_quiet (Io.loop_read hl hw)).1
              | true => exact writeStep_quiet (Io.loop_write hl hw)
            exact ⟨_, rfl, h.resume hio hl (fun _ _ hact => by cases hact) hidle hreq
              (fun k => (hawait k).mpr) fun did hd i hi k hk _ => .inr ((hawait k).mp hk)⟩
          | some act =>
            cases act with
            | request rqK j =>
              cases hw : io.write with
              | false => exact h.readRequest hv hio hw hcall hl
              | true => exact h.writeRequest hn hv hio hw hcall hl hring
            | check k =>
              exact ⟨_, rfl, h.setCall hio (.test false k back) ⟨hidle, hl⟩ hreq.symm⟩

/-- Any step goes on and keeps the invariant. -/
theorem fileInv_step (hn : Distinguished names) (hv : c.Valid) (o : FileStep) (s : System)
    (h : FileInv names c s) (hA : o.Admissible names c s) :
    ∃ s', o.step c s = .ok s' ∧ FileInv names c s' := by
  obtain ⟨hq, hA⟩ := hA
  cases o with
  | myfsOpen f =>
    obtain ⟨hf, hclosed, hcan⟩ := hA
    exact h.openFile hn hv (hq trivial) hf hclosed hcan
  | myfsClose fd => exact ⟨_, rfl, h.closeFile hv (hq trivial) hA⟩
  | myfsUnlink f => exact ⟨_, rfl, h.unlinkFile hn hv (hq trivial) hA.1 hA.2⟩
  | store user => exact ⟨_, rfl, h.store hA user⟩
  | readImpl core hookfd len pos buf =>
    obtain ⟨hopen, hcore, hpos, hlen, hbuf⟩ := hA
    exact h.readImpl hv (hq trivial) hopen hcore hpos hlen hbuf
  | writeImpl core hookfd len pos buf =>
    obtain ⟨hopen, hcore, hpos, hwhole, hlen, hgrown, hroom⟩ := hA
    exact h.writeImpl hv (hq trivial) hopen hcore hpos hwhole hlen hgrown hroom
  | next => exact h.next hn hv hA
  | exec did core i => exact ⟨_, rfl, h.device hv id hA⟩
  | post did core i x => exact ⟨_, rfl, h.device hv id hA⟩

/-- The program starts. -/
theorem fileInv_start (hv : c.Valid) {sb : Superblock numBlocks}
    (hdir : Directory names (myfsMount sb).sb fun _ => none) (disk : ℕ → ℕ → Byte) (user : ℕ → Byte) :
    FileInv names c (System.start c sb disk user) := by
  refine .of_settled hv ⟨inv_nvmeInit hv.nvme disk user, hdir, fun i hi => rfl⟩ rfl ?_ ?_
  · exact fun did hd k hk => ⟨rfl, fun i hi => absurd hi (Nat.not_lt_zero i)⟩
  · exact fun f x b hcont => by cases hcont

/-- In every run the program goes on, and what its reads put into their buffers is what was written
to the files last. -/
theorem read_after_write (hn : Distinguished names) (hv : c.Valid) (sb : Superblock numBlocks)
    (hdir : Directory names (myfsMount sb).sb fun _ => none) (disk : ℕ → ℕ → Byte) (user : ℕ → Byte)
    (steps : List FileStep)
    (hA : Meets (FileStep.step c) (FileStep.Admissible names c) steps (System.start c sb disk user)) :
    (∃ s, run (FileStep.step c) steps (System.start c sb disk user) = .ok s) ∧
      Always (FileStep.step c) System.ReadBack steps (System.start c sb disk user) := by
  have hstart := fileInv_start hv hdir disk user
  refine ⟨exists_run_of_meets (fileInv_step hn hv) hstart hA,
    always_of_meets (fun s h => h.readBack hn) (fun o s h hA => ?_) hstart hA⟩
  obtain ⟨s', hs, h'⟩ := fileInv_step hn hv o s h hA
  rw [hs]
  exact h'

end Program

/-! ### Runs -/

/-- One core, with the configured queue length and batches. -/
def oneCore (nd : ℕ) : IoConfig := ⟨⟨nd, 1, 1024, fun _ _ p => p * 2097152⟩, 256, 8⟩

theorem n2mbPage_1024 : n2mbPage 1024 = 2 := by decide

theorem oneCore_valid {nd : ℕ} (h : 1 ≤ nd) : (oneCore nd).nvme.Valid := by
  refine ⟨h, le_rfl, fun did _ core _ => ⟨⟨Nat.succ_pos 1023, pages_1024, ?_⟩, le_rfl⟩⟩
  intro p _ k _ hne
  change p * 2097152 + 2 * 1024 * 1024 ≤ k * 2097152 ∨ k * 2097152 + 2 * 1024 * 1024 ≤ p * 2097152
  omega

theorem oneCore_addressed (nd : ℕ) : (oneCore nd).nvme.Addressed := by
  intro did _ core _ p hp
  change p < n2mbPage 1024 at hp
  change p * 2097152 + 2 * 1024 * 1024 ≤ 2 ^ 64
  rw [n2mbPage_1024] at hp
  omega

theorem nameA_distinguished : Distinguished fun f => f = nameA where
  nonempty f hf := by
    rw [hf]
    decide
  short f hf := by
    rw [hf]
    exact nameA_short
  prefix_free f g hf hg _ := hf.trans hg.symm

/-- The program after it has opened its first file. -/
def openedFirst (c : IoConfig) (sb : Superblock numBlocks) (disk : ℕ → ℕ → Byte) (user : ℕ → Byte) :
    System :=
  { System.start c sb disk user with
    fs := openNew (myfsMount sb) nameA 0
    opened := Function.update (fun _ => none) 0 (some nameA) }

/-- In a directory without files `myfs_open` makes one. -/
theorem open_first {c : IoConfig} {sb : Superblock numBlocks}
    (hfile : ∀ i < maxFiles, (myfsMount sb).sb.file i = ⟨CString.empty, emptyTable, 0⟩)
    (disk : ℕ → ℕ → Byte) (user : ℕ → Byte) :
    FileStep.step c (.myfsOpen nameA) (System.start c sb disk user) =
        .ok (openedFirst c sb disk user) ∧
      (FileStep.myfsOpen nameA).Admissible (fun f => f = nameA) c (System.start c sb disk user) := by
  have hne : nameA ≠ CString.empty := by decide
  have hopen := myfsOpen_first (fun i hi => by rw [hfile i hi]) hne nameA_short
  refine ⟨?_, fun _ => ⟨rfl, fun did _ core _ i hi => absurd hi (Nat.not_lt_zero i)⟩, rfl, ?_, ?_⟩
  · rw [FileStep.step, System.openFile, System.start]
    simp only [hopen]
    rfl
  · exact fun fd _ h => nomatch h
  · exact myfsOpen_isSome.mp ⟨_, _, hopen⟩

/-- A call of `write_impl` for a sector at `pos`, which is command `i` of a drive. -/
def writeSteps (pos did i : ℕ) : List FileStep :=
  .writeImpl 0 0 512 pos 8192 :: List.replicate 8 .next ++ [.exec did 0 i, .post did 0 i plainCqe]

/-- Memory with sevens below address 10000. -/
def sevens (a : ℕ) : Byte := if a < 10000 then 7 else 0

/-- Write a sector and read it. -/
def sectorSteps : List FileStep :=
  writeSteps 0 0 0 ++ .readImpl 0 0 512 0 20000 :: List.replicate 5 .next ++
    [.exec 0 0 1, .post 0 0 1 plainCqe] ++ List.replicate 14 .next

/-- The theorem at a new file on two fresh drives. -/
theorem read_after_write_sector :
    (∃ s, run (FileStep.step (oneCore 2)) (.myfsOpen nameA :: sectorSteps)
        (System.start (oneCore 2) (zeroSuperblock numBlocks one_lt_numBlocks) (fun _ _ => 0) sevens) =
          .ok s ∧ s.driver.user 20000 = 7) ∧
      Always (FileStep.step (oneCore 2)) System.ReadBack (.myfsOpen nameA :: sectorSteps)
        (System.start (oneCore 2) (zeroSuperblock numBlocks one_lt_numBlocks) (fun _ _ => 0) sevens) := by
  have hfile : ∀ i < maxFiles, (myfsMount (zeroSuperblock numBlocks one_lt_numBlocks)).sb.file i =
      ⟨CString.empty, emptyTable, 0⟩ := by
    intro i hi
    rw [mount_zero]
    exact fresh_file _ _ hi
  have hfree : (myfsMount (zeroSuperblock numBlocks one_lt_numBlocks)).sb.free.entries =
      allBlocks numBlocks := by
    rw [mount_zero]
    exact init_entries _
  have hv : (oneCore 2).Valid := ⟨oneCore_valid (by decide), oneCore_addressed 2, by decide⟩
  obtain ⟨hopen, hA⟩ := open_first (c := oneCore 2) hfile (fun _ _ => 0) sevens
  have hmeets : Meets (FileStep.step (oneCore 2)) (FileStep.Admissible (fun f => f = nameA) (oneCore 2))
      sectorSteps (openedFirst (oneCore 2) (zeroSuperblock numBlocks one_lt_numBlocks) (fun _ _ => 0)
        sevens) := by decide +kernel
  have hrun : ∃ s, run (FileStep.step (oneCore 2)) sectorSteps (openedFirst (oneCore 2)
      (zeroSuperblock numBlocks one_lt_numBlocks) (fun _ _ => 0) sevens) = .ok s ∧
        s.driver.user 20000 = 7 := by decide +kernel
  constructor
  · rw [run_cons, hopen, Outcome.bind_ok]
    exact hrun
  · refine (read_after_write nameA_distinguished hv _ (directory_of_unused hfree hfile) _ _
      (.myfsOpen nameA :: sectorSteps) ?_).2
    rw [meets_cons, hopen, Outcome.after_ok]
    exact ⟨hA, hmeets⟩

/-! ### More drives than an `int` can number -/

namespace System

/-- A ULT is at work only on queues of the drives `T`. -/
def Within (c : IoConfig) (T : List ℕ) (s : System) : Prop :=
  match s.io with
  | none => True
  | some io =>
    match io.call with
    | .request did _ _ => did ∈ T
    | .poll k _ => ridDid c.nvme (io.rid k) ∈ T
    | .loop | .test .. => True

instance decidableWithin (c : IoConfig) (T : List ℕ) (s : System) : Decidable (s.Within c T) :=
  match hio : s.io with
  | none => isTrue (by simp only [Within, hio])
  | some io =>
    match hcall : io.call with
    | .request did _ _ => decidable_of_iff (did ∈ T) (by simp only [Within, hio, hcall])
    | .poll k _ => decidable_of_iff (ridDid c.nvme (io.rid k) ∈ T) (by simp only [Within, hio, hcall])
    | .loop | .test .. => isTrue (by simp only [Within, hio, hcall])

/-- The other drives were given no command. -/
def Unused (T : List ℕ) (s : System) : Prop :=
  ∀ did, did ∉ T → ∀ core, (s.driver.queue did core).issued = 0

end System

/-- `Admissible`, where only the drives `T` are looked at. -/
def FileStep.Brief (names : CString → Prop) (c : IoConfig) (T : List ℕ) (o : FileStep) (s : System) :
    Prop :=
  s.Within c T ∧ o.Allowed names c s ∧ (o.Calls → s.io = none ∧ ∀ did ∈ T, ∀ core < c.nvme.nCore,
    ∀ i < (s.driver.queue did core).issued, ((s.driver.queue did core).cmd i).stage.Completed)

instance decidableBrief (names : CString → Prop) [DecidablePred names] (c : IoConfig) (T : List ℕ)
    (o : FileStep) (s : System) : Decidable (o.Brief names c T s) :=
  inferInstanceAs (Decidable (_ ∧ _ ∧ _))

section Wrap

variable {c : IoConfig} {T : List ℕ} {s : System} {o : FileStep}

/-- Only a step of a ULT in a queue gives it a command. -/
theorem step_issued {c : QpConfig} {o : QueueStep} (ho : o ≠ .host) (p : Port) :
    (o.step c p).queue.issued = p.queue.issued := by
  cases o with
  | request r => rfl
  | call => rfl
  | host => exact absurd rfl ho
  | exec i =>
    obtain ⟨dma, hexec⟩ := exec_queue i p
    rw [QueueStep.step, hexec]
  | post i x =>
    simp only [QueueStep.step]
    split <;> rfl

theorem System.Unused.drive (h : s.Unused T) {o : DriverStep} (ho : o.on = .host → o.did c.nvme ∈ T)
    {s' : System} (hs : s'.driver = o.next c.nvme s.driver) : s'.Unused T := by
  intro did hd k
  rw [hs]
  by_cases hq : did = o.did c.nvme ∧ k = o.core c.nvme
  · obtain ⟨rfl, rfl⟩ := hq
    have hissued := step_issued (c := c.nvme.qp (o.did c.nvme) (o.core c.nvme)) (fun he => hd (ho he))
      (s.driver.port (o.did c.nvme) (o.core c.nvme))
    rw [← port_next] at hissued
    exact hissued.trans (h _ hd _)
  · rw [queue_next_of_ne c.nvme o s.driver hq]
    exact h did hd k

theorem System.Unused.next (h : s.Unused T) (hw : s.Within c T) :
    (s.next c).After (System.Unused T) := by
  unfold System.Within at hw
  unfold System.next
  cases hio : s.io with
  | none => exact h
  | some io =>
    rw [hio] at hw
    dsimp only at hw ⊢
    cases hcall : io.call with
    | loop =>
      dsimp only
      unfold System.loop
      split_ifs
      · exact h
      · split
        · exact h
        · unfold System.request
          split_ifs
          · split
            · trivial
            · trivial
            · exact h.drive (o := .nvmeWriteReq ..) (fun h => by cases h) rfl
          · split
            · trivial
            · trivial
            · exact h.drive (o := .nvmeReadReq ..) (fun h => by cases h) rfl
          · trivial
        · exact h
    | request did rqK back =>
      rw [hcall] at hw
      dsimp only [Outcome.after_ok]
      unfold System.inRequest
      split
      · exact h.drive (o := .host did io.core) (fun _ => hw) rfl
      · exact h.drive (o := .host did io.core) (fun _ => hw) rfl
    | test again k back =>
      dsimp only
      unfold System.test
      split_ifs
      · exact h
      · exact h
      · exact h.drive (o := .nvmeCheck (io.rid k)) (fun h => by cases h) rfl
      · trivial
    | poll k back =>
      rw [hcall] at hw
      dsimp only [System.poll, Outcome.after_ok]
      split
      · exact h
      · exact h.drive (o := .host ..) (fun _ => hw) rfl

theorem System.Unused.step (h : s.Unused T) (hw : s.Within c T) :
    (o.step c s).After (System.Unused T) := by
  cases o with
  | myfsOpen f =>
    rw [FileStep.step, System.openFile]
    split
    · exact h
    · trivial
  | readImpl core hookfd len pos buf =>
    rw [FileStep.step, System.readImpl]
    split_ifs
    · exact h
    · trivial
  | writeImpl core hookfd len pos buf =>
    rw [FileStep.step, System.writeImpl]
    split_ifs
    · exact h
    · trivial
  | next => exact h.next hw
  | exec did core i => exact h.drive (o := .exec did core i) (fun h => by cases h) rfl
  | post did core i x => exact h.drive (o := .post did core i x) (fun h => by cases h) rfl
  | _ => exact h

theorem FileStep.Brief.admissible {names : CString → Prop} (h : s.Unused T) (hb : o.Brief names c T s) :
    o.Admissible names c s := by
  obtain ⟨-, hA, hq⟩ := hb
  refine ⟨fun hcalls => ⟨(hq hcalls).1, fun did _ core hcore i hi => ?_⟩, hA⟩
  by_cases hd : did ∈ T
  · exact (hq hcalls).2 did hd core hcore i hi
  · rw [h did hd core] at hi
    exact absurd hi (Nat.not_lt_zero i)

theorem meets_of_brief {names : CString → Prop} {steps : List FileStep} (h : s.Unused T)
    (hb : Meets (FileStep.step c) (FileStep.Brief names c T) steps s) :
    Meets (FileStep.step c) (FileStep.Admissible names c) steps s :=
  Meets.of_inv (I := System.Unused T) (fun _ _ h hb => FileStep.Brief.admissible h hb)
    (fun _ _ h hb => h.step hb.1) h hb

end Wrap

/-- The ring once the first 8192 blocks were a file that was unlinked. -/
def usedRing : Cyclic numBlocks ℤ where
  cell := fun i => if i < 8191 then (i : ℤ) + 1 else if i = numBlocks - 1 then 0 else i
  rp := 8192
  wp := 8191
  rp_lt := by simp [numBlocks]
  wp_lt := by simp [numBlocks]

def usedSuperblock : Superblock numBlocks := ⟨myfsMagic, usedRing, fun _ => ⟨CString.empty, emptyTable, 0⟩⟩

theorem usedRing_entries : usedRing.entries = allBlocks numBlocks := by
  have hN : numBlocks = 716800 := by simp [numBlocks]
  have hsize : usedRing.size = 716799 := by
    unfold Cyclic.size
    simp only [usedRing, hN]
  have hcell : ∀ k < 716799, usedRing.cell ((usedRing.rp + k) % numBlocks) =
      (((8192 + k) % 716799 : ℕ) : ℤ) := by
    intro k hk
    simp only [usedRing, hN]
    split_ifs <;> omega
  have hentries : usedRing.entries =
      (Multiset.range 716799).map fun k => (((8192 + k) % 716799 : ℕ) : ℤ) := by
    rw [Cyclic.entries, hsize]
    exact Multiset.map_congr rfl fun k hk => hcell k (Multiset.mem_range.mp hk)
  have hnodup : usedRing.entries.Nodup := by
    rw [hentries]
    refine (Multiset.nodup_range _).map_on fun k hk l hl he => ?_
    have hk := Multiset.mem_range.mp hk
    have hl := Multiset.mem_range.mp hl
    omega
  refine Multiset.eq_of_le_of_card_le ((Multiset.le_iff_subset hnodup).mpr fun b hb => ?_) ?_
  · rw [hentries] at hb
    obtain ⟨k, -, rfl⟩ := Multiset.mem_map.mp hb
    rw [mem_allBlocks, hN]
    omega
  · rw [Cyclic.card_entries, card_allBlocks, hsize, hN]

/-- The identifiers of the last drive begin at `2 ^ 32`. -/
def wrapConfig : IoConfig := oneCore (2 ^ 22 + 1)

/-- Write to the last drive and twice to the first one, and read from the last one. -/
def wrapSteps : List FileStep :=
  writeSteps 0 (2 ^ 22) 0 ++ writeSteps 4096 0 0 ++ writeSteps 4096 0 1 ++
    .readImpl 0 0 512 0 20000 :: List.replicate 19 .next

/-- The read takes its request for the second one of the first drive, and ends before its data is
there. -/
theorem wrapped_read_returns_early :
    Distinguished (fun f => f = nameA) ∧ wrapConfig.nvme.Valid ∧ wrapConfig.nvme.Addressed ∧
      Directory (fun f => f = nameA) (myfsMount usedSuperblock).sb (fun _ => none) ∧
      Meets (FileStep.step wrapConfig) (FileStep.Admissible (fun f => f = nameA) wrapConfig)
        (.myfsOpen nameA :: wrapSteps) (System.start wrapConfig usedSuperblock (fun _ _ => 0) sevens) ∧
      ¬ Always (FileStep.step wrapConfig) System.ReadBack (.myfsOpen nameA :: wrapSteps)
        (System.start wrapConfig usedSuperblock (fun _ _ => 0) sevens) := by
  have hmount : (myfsMount usedSuperblock).sb = usedSuperblock := by
    simp [myfsMount, usedSuperblock]
  have hfile : ∀ i < maxFiles, (myfsMount usedSuperblock).sb.file i = ⟨CString.empty, emptyTable, 0⟩ :=
    fun i _ => by rw [hmount]; rfl
  have hfree : (myfsMount usedSuperblock).sb.free.entries = allBlocks numBlocks := by
    rw [hmount]
    exact usedRing_entries
  obtain ⟨hopen, hA⟩ := open_first (c := wrapConfig) hfile (fun _ _ => 0) sevens
  have hbrief : Meets (FileStep.step wrapConfig)
      (FileStep.Brief (fun f => f = nameA) wrapConfig [0, 2 ^ 22]) wrapSteps
        (openedFirst wrapConfig usedSuperblock (fun _ _ => 0) sevens) := by decide +kernel
  have hmeets := meets_of_brief (fun _ _ _ => rfl) hbrief
  have hrun : ∃ s, run (FileStep.step wrapConfig) wrapSteps
      (openedFirst wrapConfig usedSuperblock (fun _ _ => 0) sevens) = .ok s ∧ ¬ s.ReadBack := by
    decide +kernel
  refine ⟨nameA_distinguished, oneCore_valid (by decide), oneCore_addressed _,
    directory_of_unused hfree hfile, ?_, fun halways => ?_⟩
  · rw [meets_cons, hopen, Outcome.after_ok]
    exact ⟨hA, hmeets⟩
  · obtain ⟨s, hs, hback⟩ := hrun
    refine hback (halways.at_end ?_)
    rw [run_cons, hopen, Outcome.bind_ok]
    exact hs

end Pthabt.Hook
