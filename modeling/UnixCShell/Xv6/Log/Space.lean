import UnixCShell.Lib.Totals
import UnixCShell.Xv6.Log.Basic

/-!
# Space in the log

Who is in an operation, who commits, and how many blocks the operations may still log. `begin_op`
lets an operation in only if the log has room for `MAXOPBLOCKS` blocks of every operation; so no
operation that keeps to its part finds the log full, and none of the panics of `log.c` is reached
(`log_no_panic`). A process that waits in `begin_op` or in `sync` waits for an operation that has
not ended or for a commit, and is woken when it ends (`log_wakeups`).
-/

namespace UnixCShell.Xv6.Log

open Lib

/-! ## Counting processes -/

/-- Is the process counted in `log.outstanding`? -/
def Pc.active : Pc → Nat
  | .begun _ | .inOp .. | .dirty .. | .logWrite .. | .logged .. | .endOp => 1
  | _ => 0

/-- The same with a process that has come to a panic: `log_write` panics in an operation. -/
def Pc.counted : Pc → Nat
  | .panic => 1
  | k => k.active

/-- Is it the process for which `log.committing` is set? -/
def Pc.commits : Pc → Nat
  | .endCommit | .commit | .writeLog _ | .install _ | .clear | .done | .committed => 1
  | _ => 0

/-- The number of blocks that its operation may still log. -/
def Pc.reserve : Pc → Nat
  | .begun _ => maxOpBlocks
  | .inOp _ mine | .dirty _ mine _ | .logWrite _ mine _
  | .logged _ mine => maxOpBlocks - mine.length
  | _ => 0

theorem Pc.active_le_counted (k : Pc) : k.active ≤ k.counted := by
  cases k with
  | panic => exact Nat.zero_le _
  | _ => exact le_rfl

theorem Pc.reserve_le (k : Pc) : k.reserve ≤ k.counted * maxOpBlocks := by
  cases k <;> simp [reserve, counted, active]

/-- A commit has emptied the log at its end. -/
def Pc.Cleared (lh : List Nat) : Pc → Prop
  | .clear | .done | .committed => lh = []
  | _ => True

theorem Pc.cleared_nil (k : Pc) : k.Cleared [] := by
  cases k <;> trivial

/-- This says nothing about a process that does not commit. -/
theorem Pc.cleared_of_commits {k : Pc} (hk : k.commits = 0) (lh : List Nat) : k.Cleared lh := by
  cases k with
  | clear | done | committed => cases hk
  | _ => trivial

/-- What is known about the blocks `lh` in the log, if no operation logs too many: an operation has
logged the blocks that it remembers, and it has room when it is about to log another one. -/
def Pc.Fits (lh : List Nat) : Pc → Prop
  | .inOp _ mine | .logged _ mine => mine ⊆ lh
  | .dirty _ mine _ | .logWrite _ mine _ => mine ⊆ lh ∧ mine.length < maxOpBlocks
  | .panic => False
  | _ => True

/-- For a process in no operation it does not matter when the log is emptied. -/
theorem Pc.Fits.clear {lh : List Nat} {k : Pc} (h : k.Fits lh) (hk : k.active = 0) :
    k.Fits [] := by
  cases k with
  | begun | inOp | dirty | logWrite | logged | endOp => cases hk
  | _ => exact h

/-- For an operation it does not matter when the log grows. -/
theorem Pc.Fits.mono {lh lh' : List Nat} {k : Pc} (h : k.Fits lh) (hsub : lh ⊆ lh') :
    k.Fits lh' := by
  cases k with
  | inOp | logged => exact List.Subset.trans h hsub
  | dirty | logWrite => exact ⟨List.Subset.trans h.1 hsub, h.2⟩
  | _ => exact h

/-- A `sync` waits for the commit that runs, or for the next one; and there will be one. -/
def Pc.Waits (s : Log) : Pc → Prop
  | .syncWait n _ => n ≤ s.ncommit ∨ n = s.ncommit + 1 ∧ (s.committing = true ∨ 0 < s.outstanding)
  | _ => True

theorem Pc.Waits.mono {s s' : Log} {k : Pc} (h : k.Waits s) (hncommit : s'.ncommit = s.ncommit)
    (hbusy : s.committing = true ∨ 0 < s.outstanding → s'.committing = true ∨ 0 < s'.outstanding) :
    k.Waits s' := by
  cases k with
  | syncWait n mark =>
    rw [Waits, hncommit]
    exact h.imp_right (And.imp_right hbusy)
  | _ => trivial

theorem length_record_le (lh : List Nat) (b : Nat) : (record lh b).length ≤ lh.length + 1 := by
  unfold record
  split <;> simp

theorem mem_record {lh : List Nat} {b c : Nat} : c ∈ record lh b ↔ c ∈ lh ∨ c = b := by
  unfold record
  split
  · next hb =>
    refine ⟨.inl, ?_⟩
    rintro (hc | rfl)
    · exact hc
    · exact hb
  · simp

/-! ## Who is in an operation, and who commits -/

/-- The counters of the log say what the processes do. This holds in every run. -/
structure Tally (s : Log) (ks : Fin nproc → Pc) : Prop where
  outstanding : s.outstanding = total Pc.counted ks
  committing  : s.committing.toNat = total Pc.commits ks
  /-- Nobody is in an operation during a commit. -/
  apart       : s.committing = true → s.outstanding = 0
  /-- What was logged has been committed when nothing goes on. -/
  empty       : s.committing = false → s.outstanding = 0 → s.lh = []
  cleared     : ∀ t, (ks t).Cleared s.lh
  waits       : ∀ t, (ks t).Waits s

variable {start : Nat} {s s' : Log} {ks : Fin nproc → Pc} {t : Fin nproc} {k k' : Pc}

namespace Tally

/-- The process `t` moves from `k` to `k'`. -/
theorem move (h : Tally s ks) (hk : ks t = k)
    (hout : s'.outstanding + k.counted = s.outstanding + k'.counted)
    (hcom : s'.committing.toNat + k.commits = s.committing.toNat + k'.commits)
    (hapart : s'.committing = true → s'.outstanding = 0)
    (hempty : s'.committing = false → s'.outstanding = 0 → s'.lh = [])
    (hcleared : k'.Cleared s'.lh) (hothers : ∀ u, u ≠ t → (ks u).Cleared s'.lh)
    (hself : k'.Waits s') (hwaits : ∀ u, (ks u).Waits s → (ks u).Waits s') :
    Tally s' (Function.update ks t k') := by
  have hcounted := total_update Pc.counted ks t k'
  have hcommits := total_update Pc.commits ks t k'
  have h₁ := h.outstanding
  have h₂ := h.committing
  rw [hk] at hcounted hcommits
  exact
    { outstanding := by omega
      committing := by omega
      apart := hapart
      empty := hempty
      cleared := (Function.forall_update_iff ks fun _ k => k.Cleared s'.lh).mpr
        ⟨hcleared, hothers⟩
      waits := (Function.forall_update_iff ks fun _ k => k.Waits s').mpr
        ⟨hself, fun u _ => hwaits u (h.waits u)⟩ }

/-- The same, where the log in memory stays as it is. -/
theorem stay (h : Tally s ks) (hk : ks t = k) (hlh : s'.lh = s.lh)
    (hout : s'.outstanding = s.outstanding) (hcom : s'.committing = s.committing)
    (hncommit : s'.ncommit = s.ncommit) (hcounted : k'.counted = k.counted)
    (hcommits : k'.commits = k.commits) (hcleared : k.Cleared s.lh → k'.Cleared s.lh)
    (hself : k'.Waits s) : Tally s' (Function.update ks t k') := by
  have hwaits {k : Pc} (hk : k.Waits s) : k.Waits s' :=
    hk.mono hncommit (by rw [hcom, hout]; exact id)
  apply h.move hk
  · rw [hout, hcounted]
  · rw [hcom, hcommits]
  · rw [hcom, hout]
    exact h.apart
  · rw [hcom, hout, hlh]
    exact h.empty
  · rw [hlh]
    exact hcleared (hk ▸ h.cleared t)
  · intro u _
    rw [hlh]
    exact h.cleared u
  · exact hwaits hself
  · exact fun u => hwaits

theorem cleared_of (h : Tally s ks) (hk : ks t = k) : k.Cleared s.lh := hk ▸ h.cleared t

theorem active_pos (h : Tally s ks) (hk : ks t = k) (hactive : k.active = 1) :
    1 ≤ s.outstanding := by
  have hle := le_total Pc.counted ks t
  have hcounted := k.active_le_counted
  rw [hk, ← h.outstanding] at hle
  omega

theorem committing_of (h : Tally s ks) (hk : ks t = k) (hcommits : k.commits = 1) :
    s.committing = true := by
  have hle := le_total Pc.commits ks t
  rw [hk, hcommits, ← h.committing] at hle
  cases hc : s.committing with
  | true => rfl
  | false => simp [hc] at hle

theorem idle (h : Tally s ks) (hzero : s.outstanding = 0) (u : Fin nproc) :
    (ks u).active = 0 := by
  rw [h.outstanding] at hzero
  have := (ks u).active_le_counted
  have := total_eq_zero_iff.mp hzero u
  omega

/-- During a commit nobody is in an operation. -/
theorem active_eq_zero (h : Tally s ks) (hc : s.committing = true) (u : Fin nproc) :
    (ks u).active = 0 := h.idle (h.apart hc) u

/-- During an operation nobody commits. -/
theorem not_committing (h : Tally s ks) (hpos : 1 ≤ s.outstanding) : s.committing = false := by
  cases hc : s.committing with
  | false => rfl
  | true => exact absurd (h.apart hc) (Nat.pos_iff_ne_zero.mp hpos)

theorem commits_eq_zero (h : Tally s ks) (hc : s.committing = false) (u : Fin nproc) :
    (ks u).commits = 0 := by
  have hzero := h.committing
  rw [hc] at hzero
  exact total_eq_zero_iff.mp hzero.symm u

theorem begin (h : Tally s ks) (hk : ks t = .begin) (hc : s.committing = false) :
    Tally { s with outstanding := s.outstanding + 1, ops := s.ops + 1 }
      (Function.update ks t (.begun s.ops)) :=
  h.move hk rfl rfl (fun hc' => absurd (hc.symm.trans hc') nofun) nofun trivial
    (fun u _ => h.cleared u) trivial fun _ hu => hu.mono rfl fun _ => .inr (Nat.succ_pos _)

theorem logWrite (h : Tally s ks) {op b : Nat} {mine : List Nat}
    (hk : ks t = .logWrite op mine b) :
    Tally { s with lh := record s.lh b } (Function.update ks t (.logged op (record mine b))) := by
  -- nobody commits during an operation, so nobody claims that the log is empty
  have hpos := h.active_pos hk rfl
  refine h.move hk rfl rfl h.apart (fun _ hzero => absurd hzero (Nat.pos_iff_ne_zero.mp hpos))
    trivial (fun u _ => ?_) trivial fun u hu => hu.mono rfl id
  exact Pc.cleared_of_commits (h.commits_eq_zero (h.not_committing hpos) u) _

/-- An operation ends, and it was the last one. -/
theorem endLast (h : Tally s ks) (hk : ks t = .endOp) (hc : s.committing = false)
    (hlast : s.outstanding - 1 = 0) :
    Tally { s with outstanding := s.outstanding - 1, committing := true }
      (Function.update ks t .endCommit) := by
  have hpos := h.active_pos hk rfl
  refine h.move hk ?_ ?_ (fun _ => hlast) nofun trivial (fun u _ => h.cleared u) trivial
    fun u hu => hu.mono rfl fun _ => .inl rfl
  · show s.outstanding - 1 + 1 = s.outstanding + 0
    omega
  · show 1 + 0 = s.committing.toNat + 1
    rw [hc]
    rfl

/-- An operation ends, and there are others. -/
theorem endOp (h : Tally s ks) (hk : ks t = .endOp) (hc : s.committing = false)
    (hmore : s.outstanding - 1 ≠ 0) :
    Tally { s with outstanding := s.outstanding - 1 } (Function.update ks t .wake) := by
  have hpos := h.active_pos hk rfl
  refine h.move hk ?_ rfl (fun hc' => absurd (hc.symm.trans hc') nofun)
    (fun _ hzero => absurd hzero hmore) trivial (fun u _ => h.cleared u) trivial
    fun u hu => hu.mono rfl fun _ => .inr (Nat.pos_of_ne_zero hmore)
  show s.outstanding - 1 + 1 = s.outstanding + 0
  omega

theorem committed (h : Tally s ks) (hk : ks t = .committed) :
    Tally { s with committing := false, ncommit := s.ncommit + 1 }
      (Function.update ks t .wake) := by
  refine h.move hk rfl ?_ nofun (fun _ _ => h.cleared_of hk) trivial (fun u _ => h.cleared u)
    trivial fun u hu => ?_
  · show 0 + 1 = s.committing.toNat + 0
    rw [h.committing_of hk rfl]
    rfl
  · -- a `sync` has waited for this commit, or for an earlier one
    cases hku : ks u with
    | syncWait n mark =>
      rw [hku] at hu
      refine .inl ?_
      obtain hle | ⟨rfl, -⟩ := hu
      · exact Nat.le_succ_of_le hle
      · exact le_rfl
    | _ => trivial

theorem installed (h : Tally s ks) {i : Nat} (hk : ks t = .install i) :
    Tally { s with lh := [] } (Function.update ks t .clear) :=
  h.move hk rfl rfl h.apart (fun _ _ => rfl) rfl (fun _ _ => Pc.cleared_nil _) trivial
    fun _ hu => hu.mono rfl id

end Tally

theorem keeps_tally : Monitor.Keeps (program start) (fun _ _ _ => True) Tally where
  update {t s ks s' k'} hs h := by
    generalize hk : ks t = k at h
    cases Inside.of_eq h with
    | begin hc hroom => exact hs.begin hk hc
    | logFull | logOutside => exact hs.stay hk rfl rfl rfl rfl rfl rfl (fun _ => trivial) trivial
    | logWrite op mine b hroom hout => exact hs.logWrite hk
    | endPanic hc => exact absurd (hs.active_pos hk rfl) (by rw [hs.apart hc]; decide)
    | endLast hc hlast => exact hs.endLast hk hc hlast
    | endOp hc hmore => exact hs.endOp hk hc hmore
    | committed => exact hs.committed hk
    | syncBusy mark hbusy =>
      exact hs.stay hk rfl rfl rfl rfl rfl rfl (fun _ => trivial) (.inr ⟨rfl, hbusy⟩)
    | syncIdle | syncEnd | panic =>
      exact hs.stay hk rfl rfl rfl rfl rfl rfl (fun _ => trivial) trivial
  ifKilled {t s ks yes no} _ h := by
    generalize ks t = k at h
    cases Inside.of_eq h
  wakeup {t s ks c k'} hs h := by
    generalize hk : ks t = k at h
    cases Inside.of_eq h with
    | wake => exact hs.stay hk rfl rfl rfl rfl rfl rfl (fun _ => trivial) trivial
  wait {t s ks c k'} hs h := by
    generalize hk : ks t = k at h
    cases Inside.of_eq h with
    | beginWait hwait => exact hs.stay hk rfl rfl rfl rfl rfl rfl (fun _ => trivial) trivial
    | syncWait n mark hlt =>
      exact hs.stay hk rfl rfl rfl rfl rfl rfl (fun _ => trivial) (hk ▸ hs.waits t)
  release {t s ks k'} hs h := by
    generalize hk : ks t = k at h
    cases Inside.of_eq h with
    | out k hout => exact hs.stay hk rfl rfl rfl rfl rfl rfl id (hk ▸ hs.waits t)
    | begun | logged | leave | endCommit | synced =>
      exact hs.stay hk rfl rfl rfl rfl rfl rfl (fun _ => trivial) trivial
  enter {t s ks a k'} hs _ h := by
    generalize hk : ks t = k at h
    cases Outside.of_eq h with
    | done => exact hs.stay hk rfl rfl rfl rfl rfl rfl (fun hcleared => hcleared) trivial
    | beginOp | sync | logWrite | endOp =>
      exact hs.stay hk rfl rfl rfl rfl rfl rfl (fun _ => trivial) trivial
  change {t s ks a s' k'} hs _ h := by
    generalize hk : ks t = k at h
    cases Outside.of_eq h with
    | commitNothing hnil => exact hs.stay hk rfl rfl rfl rfl rfl rfl (fun _ => hnil) trivial
    | installed i hi => exact hs.installed hk
    | clear => exact hs.stay hk rfl rfl rfl rfl rfl rfl (fun hcleared => hcleared) trivial
    | write | commit | writeLog | writeHead | install =>
      exact hs.stay hk rfl rfl rfl rfl rfl rfl (fun _ => trivial) trivial

theorem tally_boot (disk : Disk) (writes : List Write) (ops : Nat) :
    Tally (System.boot disk writes ops).shared (System.boot disk writes ops).ks where
  outstanding := (total_eq_zero_iff.mpr fun _ => rfl).symm
  committing := (total_eq_zero_iff.mpr fun _ => rfl).symm
  apart _ := rfl
  empty _ _ := rfl
  cleared _ := trivial
  waits _ := trivial

/-! ## Room for the blocks -/

/-- The invariant of the runs in which no operation logs too many blocks. -/
structure Ok (s : Log) (ks : Fin nproc → Pc) : Prop extends Tally s ks where
  space : s.lh.length + total Pc.reserve ks ≤ logBlocks
  fits  : ∀ t, (ks t).Fits s.lh

namespace Ok

/-- The process `t` moves from `k` to `k'`. -/
theorem of_tally (htally : Tally s' (Function.update ks t k')) (hk : ks t = k)
    (hspace : s'.lh.length + total Pc.reserve ks + k'.reserve ≤ logBlocks + k.reserve)
    (hfits : k'.Fits s'.lh) (hothers : ∀ u, u ≠ t → (ks u).Fits s'.lh) :
    Ok s' (Function.update ks t k') := by
  have hreserve := total_update Pc.reserve ks t k'
  rw [hk] at hreserve
  refine ⟨htally, by omega, ?_⟩
  exact (Function.forall_update_iff ks fun _ k => k.Fits s'.lh).mpr ⟨hfits, hothers⟩

/-- The same, where the blocks in the log stay as they are. -/
theorem stay (h : Ok s ks) (hk : ks t = k) (htally : Tally s' (Function.update ks t k'))
    (hlh : s'.lh = s.lh) (hreserve : k'.reserve ≤ k.reserve)
    (hfits : k.Fits s.lh → k'.Fits s.lh) : Ok s' (Function.update ks t k') := by
  have hspace := h.space
  apply of_tally htally hk
  · rw [hlh]
    omega
  · rw [hlh]
    exact hfits (hk ▸ h.fits t)
  · intro u _
    rw [hlh]
    exact h.fits u

theorem fits_of (h : Ok s ks) (hk : ks t = k) : k.Fits s.lh := hk ▸ h.fits t

theorem begin (h : Ok s ks) (hk : ks t = .begin)
    (hroom : s.lh.length + (s.outstanding + 1) * maxOpBlocks ≤ logBlocks)
    (htally : Tally { s with outstanding := s.outstanding + 1, ops := s.ops + 1 }
      (Function.update ks t (.begun s.ops))) :
    Ok { s with outstanding := s.outstanding + 1, ops := s.ops + 1 }
      (Function.update ks t (.begun s.ops)) := by
  -- `begin_op` counts `MAXOPBLOCKS` blocks for every operation, which is at least what is reserved
  have hreserve := total_le_mul Pc.reserve_le ks
  rw [← h.outstanding] at hreserve
  refine of_tally htally hk ?_ trivial fun u _ => h.fits u
  show s.lh.length + total Pc.reserve ks + maxOpBlocks ≤ logBlocks + 0
  rw [Nat.add_mul] at hroom
  omega

theorem logWrite (h : Ok s ks) {op b : Nat} {mine : List Nat} (hk : ks t = .logWrite op mine b) :
    Ok { s with lh := record s.lh b } (Function.update ks t (.logged op (record mine b))) := by
  obtain ⟨hmine, hin⟩ := h.fits_of hk
  refine of_tally (h.toTally.logWrite hk) hk ?_ ?_ fun u _ => ?_
  · -- a block that is new for the log is new for the operation
    have hspace := h.space
    show (record s.lh b).length + total Pc.reserve ks + (maxOpBlocks - (record mine b).length)
      ≤ logBlocks + (maxOpBlocks - mine.length)
    by_cases hb : b ∈ mine
    · rw [record, record, if_pos (hmine hb), if_pos hb]
      omega
    · have hlen := length_record_le s.lh b
      have hlen' : (record mine b).length = mine.length + 1 := by simp [record, hb]
      omega
  · intro c hc
    exact mem_record.mpr ((mem_record.mp hc).imp_left (hmine ·))
  · exact (h.fits u).mono fun c hc => mem_record.mpr (.inl hc)

/-- `log_write` has room. -/
theorem room (h : Ok s ks) {op b : Nat} {mine : List Nat} (hk : ks t = .logWrite op mine b) :
    s.lh.length < logBlocks := by
  have hin := (h.fits_of hk).2
  have hle := le_total Pc.reserve ks t
  have hspace := h.space
  rw [hk, Pc.reserve] at hle
  omega

theorem installed (h : Ok s ks) {i : Nat} (hk : ks t = .install i) :
    Ok { s with lh := [] } (Function.update ks t .clear) := by
  have hc := h.committing_of hk rfl
  have hspace := h.space
  refine of_tally (h.toTally.installed hk) hk ?_ trivial fun u _ =>
    (h.fits u).clear (h.active_eq_zero hc u)
  show 0 + total Pc.reserve ks + 0 ≤ logBlocks + 0
  omega

end Ok

/-- The block that an operation is going to change, with those that it has logged. -/
def writing : Pc → Call → Option (List Nat × Nat)
  | .inOp _ mine, .write b _ => some (mine, b)
  | _, _ => none

/-- The operations log no more than `MAXOPBLOCKS` blocks, and nothing behind the last one. -/
def Frugal (_ : Fin nproc) (k : Pc) (c : Call) : Prop :=
  ∀ x ∈ writing k c, x.1.length < maxOpBlocks

instance (t : Fin nproc) (k : Pc) (c : Call) : Decidable (Frugal t k c) :=
  inferInstanceAs (Decidable (∀ x ∈ writing k c, x.1.length < maxOpBlocks))

theorem keeps_ok : Monitor.Keeps (program start) Frugal Ok where
  update {t s ks s' k'} hs h := by
    have htally := keeps_tally.update hs.toTally h
    generalize hk : ks t = k at h
    cases Inside.of_eq h with
    | begin hc hroom => exact hs.begin hk hroom htally
    | logFull op mine b hfull => exact absurd (hs.room hk) (Nat.not_lt.mpr hfull)
    | logOutside op mine b hout => exact absurd (hs.active_pos hk rfl) (Nat.not_le.mpr hout)
    | logWrite op mine b hroom hout => exact hs.logWrite hk
    | endPanic hc => exact absurd (hs.active_pos hk rfl) (by rw [hs.apart hc]; decide)
    | endLast | endOp | committed | syncBusy | syncIdle | syncEnd =>
      exact hs.stay hk htally rfl le_rfl fun _ => trivial
    | panic => exact (hs.fits_of hk).elim
  ifKilled {t s ks yes no} _ h := by
    generalize ks t = k at h
    cases Inside.of_eq h
  wakeup {t s ks c k'} hs h := by
    have htally := keeps_tally.wakeup hs.toTally h
    generalize hk : ks t = k at h
    cases Inside.of_eq h with
    | wake => exact hs.stay hk htally rfl le_rfl fun _ => trivial
  wait {t s ks c k'} hs h := by
    have htally := keeps_tally.wait hs.toTally h
    generalize hk : ks t = k at h
    cases Inside.of_eq h with
    | beginWait | syncWait => exact hs.stay hk htally rfl le_rfl fun _ => trivial
  release {t s ks k'} hs h := by
    have htally := keeps_tally.release hs.toTally h
    generalize hk : ks t = k at h
    cases Inside.of_eq h with
    | begun op => exact hs.stay hk htally rfl le_rfl fun _ => List.nil_subset _
    | logged | out => exact hs.stay hk htally rfl le_rfl fun hfits => hfits
    | leave | endCommit | synced => exact hs.stay hk htally rfl le_rfl fun _ => trivial
  enter {t s ks a k'} hs _ h := by
    have htally := keeps_tally.enter hs.toTally trivial h
    generalize hk : ks t = k at h
    cases Outside.of_eq h with
    | logWrite => exact hs.stay hk htally rfl le_rfl fun hfits => hfits
    | endOp => exact hs.stay hk htally rfl (Nat.zero_le _) fun _ => trivial
    | beginOp | sync | done => exact hs.stay hk htally rfl le_rfl fun _ => trivial
  change {t s ks a s' k'} hs hfrugal h := by
    have htally := keeps_tally.change hs.toTally trivial h
    generalize hk : ks t = k at h hfrugal
    cases Outside.of_eq h with
    | write => exact hs.stay hk htally rfl le_rfl fun hfits => ⟨hfits, hfrugal _ rfl⟩
    | installed i hi => exact hs.installed hk
    | commit | commitNothing | writeLog | writeHead | install | clear =>
      exact hs.stay hk htally rfl le_rfl fun _ => trivial

theorem ok_boot (disk : Disk) (writes : List Write) (ops : Nat) :
    Ok (System.boot disk writes ops).shared (System.boot disk writes ops).ks where
  toTally := tally_boot disk writes ops
  space := by
    have : total Pc.reserve (System.boot disk writes ops).ks = 0 :=
      total_eq_zero_iff.mpr fun _ => rfl
    show 0 + total Pc.reserve (System.boot disk writes ops).ks ≤ logBlocks
    omega
  fits _ := trivial

/-- If no operation calls `log_write` again once it has logged `MAXOPBLOCKS` blocks, then no process
panics: there is room in the log for every block, `log_write` is in an operation, and no operation
ends during a commit. -/
theorem log_no_panic (disk : Disk) (writes : List Write) (ops : Nat)
    {acts : List (Monitor.Act (Fin nproc) Call)} {m : System}
    (hfrugal : AllSteps (System.step start) (Monitor.Chooses Frugal) (System.boot disk writes ops)
      acts) (hrun : run (System.step start) (System.boot disk writes ops) acts = some m) :
    m.shared.lh.length ≤ logBlocks ∧ (∀ t, m.ks t ≠ .panic) ∧
      (m.shared.committing = true → ∀ t, (m.ks t).active = 0) := by
  have hok := Monitor.run_keeps keeps_ok hfrugal (ok_boot disk writes ops) hrun
  refine ⟨Nat.le_of_add_right_le hok.space, fun t ht => ?_, fun hc t => hok.active_eq_zero hc t⟩
  exact (hok.fits_of ht).elim

/-- An operation that logs one block. -/
theorem log_no_panic_one_block :
    ∃ m, run (System.step 2) (System.boot (fun _ _ => 0) [] 0) (opActs 0 40 fun _ => 7) = some m ∧
      m.shared.lh = [40] ∧ ∀ t, m.ks t ≠ .panic := by
  obtain ⟨m, hrun, hlh⟩ : ∃ m, run (System.step 2) (System.boot (fun _ _ => 0) [] 0)
    (opActs 0 40 fun _ => 7) = some m ∧
      m.shared.lh = [40] := exists_run_of_any (by decide +kernel)
  exact ⟨m, hrun, hlh, (log_no_panic _ _ _ (by decide +kernel) hrun).2.1⟩

/-! ## Wakeups -/

/-- Why a process waits. -/
def reason (_ : Unit) (_ : Fin nproc) (k : Pc) (s : Log) : Prop :=
  match k with
  | .begin => s.committing = true ∨ s.lh.length + (s.outstanding + 1) * maxOpBlocks > logBlocks
  | .syncWait n _ => s.ncommit < n
  | _ => False

def owes (k : Pc) (_ : Unit) : Prop := k = .wake

/-- The reason stays while the commits are not counted, the log does not shrink and no operation
ends. -/
theorem reason_mono {c : Unit} {u : Fin nproc} {k : Pc} (h : reason c u k s)
    (hcom : s.committing = true → s'.committing = true) (hncommit : s'.ncommit = s.ncommit)
    (hlh : s.lh.length ≤ s'.lh.length) (hout : s.outstanding ≤ s'.outstanding) :
    reason c u k s' := by
  cases k with
  | begin =>
    refine h.imp hcom fun hfull => ?_
    have := Nat.mul_le_mul_right maxOpBlocks (Nat.add_le_add_right hout 1)
    omega
  | syncWait n mark => rwa [reason, hncommit]
  | _ => exact h.elim

/-- The reason of those who wait during a commit. -/
theorem reason_committing {c : Unit} {u : Fin nproc} {k : Pc} (h : reason c u k s)
    (hcom : s'.committing = true) (hncommit : s'.ncommit = s.ncommit) : reason c u k s' := by
  cases k with
  | begin => exact .inl hcom
  | syncWait n mark => rwa [reason, hncommit]
  | _ => exact h.elim

theorem fair : Monitor.Fair (program start) (fun m => Tally m.shared m.ks) reason owes where
  update {m t k s' k'} hJ hpc h := by
    have hk : m.ks t = k := by rw [Monitor.ks, hpc]; rfl
    cases Inside.of_eq h with
    | begin hc hroom =>
      exact ⟨by rintro _ ⟨⟩, fun _ _ hr => .inl (reason_mono hr id rfl le_rfl (Nat.le_succ _))⟩
    | logWrite op mine b hroom hout =>
      refine ⟨by rintro _ ⟨⟩, fun _ _ hr => .inl (reason_mono hr id rfl ?_ le_rfl)⟩
      show m.shared.lh.length ≤ (record m.shared.lh b).length
      unfold record
      split <;> simp
    | endPanic hc => exact absurd (hJ.active_pos hk rfl) (by rw [hJ.apart hc]; decide)
    | endLast hc hlast =>
      exact ⟨by rintro _ ⟨⟩, fun _ _ hr => .inl (reason_committing hr rfl rfl)⟩
    | endOp | committed => exact ⟨by rintro _ ⟨⟩, fun _ _ _ => .inr rfl⟩
    | logFull | logOutside | syncBusy | syncIdle | syncEnd | panic =>
      exact ⟨by rintro _ ⟨⟩, fun _ _ hr => .inl hr⟩
  ifKilled _ _ h := nomatch Inside.of_eq h
  wakeup _ _ _ _ _ := .inl rfl
  wait {m t k c k'} _ _ h := by
    cases Inside.of_eq h with
    | beginWait hwait => exact ⟨hwait, by rintro _ _ ⟨⟩⟩
    | syncWait n mark hlt => exact ⟨hlt, by rintro _ _ ⟨⟩⟩
  release {m t k k'} _ _ h c u ho _ := by
    obtain rfl : k = .wake := ho
    cases Inside.of_eq h with
    | out k hout => cases hout
  change {m t k a s' k'} hJ hpc h c u _ _ hr := by
    have hk : m.ks t = k := by rw [Monitor.ks, hpc]; rfl
    cases Outside.of_eq h with
    | write | commit | commitNothing | writeLog | writeHead | install | clear =>
      exact reason_mono hr id rfl le_rfl le_rfl
    | installed i hi =>
      -- the log shrinks, but the commit has not ended
      exact reason_committing hr (hJ.committing_of hk rfl) rfl

end UnixCShell.Xv6.Log
