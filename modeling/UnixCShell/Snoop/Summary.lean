import Mathlib.Data.Prod.Lex
import Mathlib.Order.Lattice
import UnixCShell.Lib.Firsts
import UnixCShell.Snoop.Basic

/-!
# The summary of `snoop`

A traced process begins and ends system calls in turn, and between these stops there are others
(`Stop`). As long as the flag of `trace_loop` is in phase with the process (`InPhase`), a call is
recorded when it ends, and the table has one row for each system call that has ended at least once
(`Recorded`). The exchange sort of `print_summary` then brings the rows into the order of the
summary.
-/

namespace UnixCShell.Snoop

open Lib

variable {τ δ : Type}

/-! ## The stops of a process -/

/-- Why a traced process stops. -/
inductive Stop (τ : Type) where
  /-- It begins a system call. -/
  | entry (sysno : Int) (clock : τ)
  /-- It ends one. -/
  | exit (origRax : Int) (clock : τ)
  /-- A signal is to be delivered to it. -/
  | signal (sig : Nat) (hsignal : sig < 128) (htrap : sig ≠ sigtrap)
      (origRax : Option Int) (clock : τ)
  /-- A `SIGTRAP` without the mark. -/
  | trap (origRax : Option Int) (clock : τ)

namespace Stop

/-- What `waitpid` reports. -/
def report : Stop τ → Report τ
  | entry sysno clock => .status (.stopped sigtrapSyscall) (some sysno) clock
  | exit origRax clock => .status (.stopped sigtrapSyscall) (some origRax) clock
  | signal sig _ _ origRax clock => .status (.stopped sig) origRax clock
  | trap origRax clock => .status (.stopped sigtrap) origRax clock

/-- The signal that is to be delivered when the process is resumed. -/
def delivers : Stop τ → Nat
  | signal sig _ _ _ _ => sig
  | _ => 0

end Stop

/-- The process begins and ends system calls in turn; `inside` says whether it is in one. -/
def Alternates : Bool → List (Stop τ) → Prop
  | _, [] => True
  | inside, .entry _ _ :: stops => inside = false ∧ Alternates true stops
  | inside, .exit _ _ :: stops => inside = true ∧ Alternates false stops
  | inside, .signal _ _ _ _ _ :: stops => Alternates inside stops
  | inside, .trap _ _ :: stops => Alternates inside stops

/-- The system calls that end, where `sysno` is the one that the process is in. -/
def completed : Option Int → List (Stop τ) → List Int
  | _, [] => []
  | _, .entry sysno _ :: stops => completed (some sysno) stops
  | sysno, .exit _ _ :: stops => sysno.toList ++ completed none stops
  | sysno, .signal _ _ _ _ _ :: stops => completed sysno stops
  | sysno, .trap _ _ :: stops => completed sysno stops

/-- The end of the process. -/
def Report.final : Report τ → Prop
  | .status s _ _ => s.final = true
  | .failed => False

/-! ## The table -/

/-- The table after the calls `cs` have ended. -/
structure Recorded (cs : List Int) (s : Stats δ) : Prop where
  sysnos  : s.rows.map (·.sysno) = firsts statsMax cs
  calls   : ∀ r ∈ s.rows, r.calls = cs.count r.sysno
  seqs    : s.rows.map (·.firstSeq) = List.range s.rows.length
  counter : s.seqCounter = s.rows.length

namespace Recorded

variable {cs : List Int} {s : Stats δ} {n : Int}

theorem empty : Recorded [] (⟨[], 0⟩ : Stats δ) := ⟨rfl, by simp, rfl, rfl⟩

theorem length_rows (h : Recorded cs s) : s.rows.length = (firsts statsMax cs).length := by
  rw [← h.sysnos, List.length_map]

/-- A call that has a row already. -/
theorem bump [Add δ] (h : Recorded cs s) {i : Nat} {r : SyscallStat δ}
    (hi : s.rows[i]? = some r) (dt : δ) :
    Recorded (cs ++ [r.sysno]) { s with rows := s.rows.modify i (·.bump dt) } := by
  have hnodup : (s.rows.map (·.sysno)).Nodup := by
    rw [h.sysnos]
    exact nodup_firsts ..
  have hmem : r.sysno ∈ firsts statsMax cs := by
    rw [← h.sysnos]
    exact List.mem_map_of_mem (List.mem_of_getElem? hi)
  have hmap : ∀ {β : Type} (f : SyscallStat δ → β), (∀ r : SyscallStat δ, f (r.bump dt) = f r) →
      (s.rows.modify i (·.bump dt)).map f = s.rows.map f := by
    intro β f hf
    apply List.ext_getElem?
    intro j
    rw [List.getElem?_map, List.getElem?_map, List.getElem?_modify]
    cases s.rows[j]? with
    | none => rfl
    | some r' =>
      by_cases hij : i = j <;> simp [hij, hf]
  refine ⟨?_, ?_, ?_, ?_⟩
  · rw [hmap _ fun _ => rfl, h.sysnos, firsts_concat, if_pos (.inl hmem)]
  · intro r' hr'
    obtain ⟨j, hj⟩ := List.mem_iff_getElem?.mp hr'
    rw [List.getElem?_modify] at hj
    by_cases hij : i = j
    · subst hij
      rw [hi] at hj
      simp only [Option.map_eq_map, Option.map_some, if_true, Option.some.injEq] at hj
      subst hj
      have hcalls := h.calls r (List.mem_of_getElem? hi)
      simp [SyscallStat.bump, hcalls]
    · simp only [hij, if_false, Option.map_eq_map, Option.map_id_fun', id_eq] at hj
      -- rows at different places belong to different calls
      have hne : r.sysno ≠ r'.sysno := by
        intro heq
        apply hij
        have hlt : i < (s.rows.map (·.sysno)).length := by
          rw [List.length_map]
          exact (List.getElem?_eq_some_iff.mp hi).1
        refine (List.getElem?_inj hlt hnodup).mp ?_
        rw [List.getElem?_map, List.getElem?_map, hi, hj, Option.map_some, Option.map_some, heq]
      rw [h.calls r' (List.mem_of_getElem? hj), List.count_append, List.count_singleton]
      simp [hne]
  · rw [hmap _ fun _ => rfl, h.seqs, List.length_modify]
  · rw [List.length_modify, h.counter]

/-- A call that has no row. -/
theorem count_concat (h : Recorded cs s) (hn : n ∉ s.rows.map (·.sysno)) {r : SyscallStat δ}
    (hr : r ∈ s.rows) :
    r.calls = (cs ++ [n]).count r.sysno := by
  have hne : n ≠ r.sysno := fun heq => hn (heq ▸ List.mem_map_of_mem hr)
  rw [h.calls r hr, List.count_append, List.count_singleton]
  simp [hne]

theorem push (h : Recorded cs s) (hn : n ∉ s.rows.map (·.sysno))
    (hroom : s.rows.length < statsMax) (dt : δ) :
    Recorded (cs ++ [n]) ⟨s.rows ++ [⟨n, 1, dt, s.seqCounter⟩], s.seqCounter + 1⟩ := by
  have hfirsts : n ∉ firsts statsMax cs := by rwa [← h.sysnos]
  have hroom' : (firsts statsMax cs).length < statsMax := by rwa [← h.length_rows]
  have hnew : n ∉ cs := fun hmem => hfirsts (mem_firsts hroom' hmem)
  refine ⟨?_, ?_, ?_, ?_⟩
  · rw [List.map_append, h.sysnos, firsts_concat, if_neg (not_or.mpr ⟨hfirsts, not_le.mpr hroom'⟩)]
    rfl
  · intro r hr
    rcases List.mem_append.mp hr with hr | hr
    · exact h.count_concat hn hr
    · rw [List.mem_singleton.mp hr]
      simp [List.count_eq_zero_of_not_mem hnew]
  · rw [List.map_append, h.seqs, List.length_append, List.length_singleton,
      List.range_succ, h.counter]
    rfl
  · rw [List.length_append, List.length_singleton, h.counter]

theorem full (h : Recorded cs s) (hn : n ∉ s.rows.map (·.sysno))
    (hfull : ¬ s.rows.length < statsMax) :
    Recorded (cs ++ [n]) s := by
  refine ⟨?_, fun r hr => h.count_concat hn hr, h.seqs, h.counter⟩
  rw [h.sysnos, firsts_concat, if_pos (.inr (by rw [← h.length_rows]; omega))]

theorem recordCall [Add δ] (h : Recorded cs s) (n : Int) (dt : δ) :
    Recorded (cs ++ [n]) (recordCall s n dt) := by
  unfold Snoop.recordCall
  split
  · next i hi =>
    obtain ⟨hlt, hsysno, -⟩ := List.findIdx?_eq_some_iff_getElem.mp hi
    have hget := List.getElem?_eq_getElem hlt
    have hrow := h.bump hget dt
    rwa [of_decide_eq_true hsysno] at hrow
  · next hnone =>
    have hn : n ∉ s.rows.map (·.sysno) := by
      rw [List.findIdx?_eq_none_iff] at hnone
      rintro hmem
      obtain ⟨r, hr, heq⟩ := List.mem_map.mp hmem
      exact absurd heq (of_decide_eq_false (hnone r hr))
    split
    · next hroom => exact h.push hn hroom dt
    · next hfull => exact h.full hn hfull

end Recorded

/-! ## The loop -/

/-- The flag of `trace_loop` says whether the process is in a system call, and it knows in which
one. -/
structure InPhase (sysno : Option Int) (t : Tracer τ δ) : Prop where
  flag    : t.inSyscall = sysno.isSome
  current : ∀ n ∈ sysno, t.currentSysno = n

theorem traceReports_final [Add δ] (timeDiff : τ → τ → δ) (t : Tracer τ δ)
    {e : Report τ} (he : e.final) (rs : List (Report τ)) :
    traceReports timeDiff t (e :: rs) = some t.resume := by
  cases e with
  | failed => cases he
  | status s origRax clock =>
    cases s with
    | exited | signaled => rfl
    | stopped | continued => cases he

/-- What one stop does: the signal of the last stop is passed on, and the next iteration begins with
the calls `cs'` recorded and in the phase `sysno'`, from where the other stops lead to the same
calls. -/
theorem traceReports_stop [Add δ] (timeDiff : τ → τ → δ) {stop : Stop τ} {stops : List (Stop τ)}
    {sysno : Option Int} {cs : List Int} {t : Tracer τ δ} (hphase : InPhase sysno t)
    (hrec : Recorded cs t.stats) (halt : Alternates sysno.isSome (stop :: stops)) :
    ∃ (t' : Tracer τ δ) (sysno' : Option Int) (cs' : List Int),
      (∀ rs, traceReports timeDiff t (stop.report :: rs) = traceReports timeDiff t' rs) ∧
      InPhase sysno' t' ∧ Recorded cs' t'.stats ∧ Alternates sysno'.isSome stops ∧
      cs' ++ completed sysno' stops = cs ++ completed sysno (stop :: stops) ∧
      t'.resumes = t.resumes ++ [t.sigToDeliver] ∧ t'.sigToDeliver = stop.delivers := by
  cases stop with
  | entry n clock =>
    obtain ⟨houtside, halt⟩ := halt
    have hstep : t.resume.stopped timeDiff sigtrapSyscall (some n) clock =
        { t.resume with currentSysno := n, entryTime := clock, inSyscall := true } := by
      have hflag : t.resume.inSyscall = false := hphase.flag.trans houtside
      simp [Tracer.stopped, hflag]
    refine ⟨{ t.resume with currentSysno := n, entryTime := clock, inSyscall := true }, some n,
      cs, fun rs => ?_,
      ⟨rfl, fun m hm => by cases hm; rfl⟩, hrec, halt, rfl, rfl, rfl⟩
    rw [Stop.report, traceReports, hstep]
  | exit origRax clock =>
    obtain ⟨hinside, halt⟩ := halt
    obtain ⟨n, rfl⟩ := Option.isSome_iff_exists.mp hinside
    have hstep : t.resume.stopped timeDiff sigtrapSyscall (some origRax) clock =
        { t.resume with
            stats := recordCall t.stats n (timeDiff t.entryTime clock), inSyscall := false } := by
      have hflag : t.resume.inSyscall = true := hphase.flag
      have hcurrent : t.resume.currentSysno = n := hphase.current n rfl
      simp only [Tracer.stopped, if_true, hflag, hcurrent]
      rfl
    refine ⟨{ t.resume with
      stats := recordCall t.stats n (timeDiff t.entryTime clock), inSyscall := false }, none,
      cs ++ [n], fun rs => ?_, ⟨rfl, fun m hm => by cases hm⟩, hrec.recordCall n _,
        halt, ?_, rfl, rfl⟩
    · rw [Stop.report, traceReports, hstep]
    · rw [List.append_assoc]
      rfl
  | signal sig hsignal htrap origRax clock =>
    have hstep : t.resume.stopped timeDiff sig origRax clock =
        { t.resume with sigToDeliver := sig } := by
      have hmark : sigtrapSyscall = 133 := by decide
      have hne : sig ≠ sigtrapSyscall := by omega
      simp [Tracer.stopped, hne, htrap]
    refine ⟨{ t.resume with sigToDeliver := sig }, sysno, cs, fun rs => ?_,
      ⟨hphase.flag, hphase.current⟩, hrec, halt, rfl, rfl, rfl⟩
    rw [Stop.report, traceReports, hstep]
  | trap origRax clock =>
    have hstep : t.resume.stopped timeDiff sigtrap origRax clock = t.resume := by
      have hne : sigtrap ≠ sigtrapSyscall := by decide
      simp [Tracer.stopped, hne]
    refine ⟨t.resume, sysno, cs, fun rs => ?_, ⟨hphase.flag, hphase.current⟩, hrec,
      halt, rfl, rfl, rfl⟩
    rw [Stop.report, traceReports, hstep]

/-- All stops up to the end of the process. -/
theorem traceReports_stops [Add δ] (timeDiff : τ → τ → δ) {e : Report τ} (he : e.final)
    {stops : List (Stop τ)} {sysno : Option Int} {cs : List Int} {t : Tracer τ δ}
    (hphase : InPhase sysno t) (hrec : Recorded cs t.stats) (halt : Alternates sysno.isSome stops) :
    ∃ t', traceReports timeDiff t (stops.map Stop.report ++ [e]) = some t' ∧
      Recorded (cs ++ completed sysno stops) t'.stats ∧
      t'.resumes = t.resumes ++ t.sigToDeliver :: stops.map Stop.delivers := by
  induction stops generalizing sysno cs t with
  | nil =>
    refine ⟨t.resume, traceReports_final timeDiff t he [], ?_, rfl⟩
    rw [completed, List.append_nil]
    exact hrec
  | cons stop stops ih =>
    obtain ⟨t₁, sysno₁, cs₁, hstep, hphase₁, hrec₁, halt₁, hcalls, hresumes, hsig⟩ :=
      traceReports_stop timeDiff hphase hrec halt
    obtain ⟨t', hrun, hrec', hresumes'⟩ := ih hphase₁ hrec₁ halt₁
    refine ⟨t', (hstep _).trans hrun, hcalls ▸ hrec', ?_⟩
    rw [hresumes', hresumes, hsig, List.append_assoc, List.singleton_append, List.map_cons]

/-! ## The order of the summary -/

/-- What the rows are sorted by. -/
def SyscallStat.key (r : SyscallStat δ) : ℕᵒᵈ ×ₗ ℕ := toLex (OrderDual.toDual r.calls, r.firstSeq)

theorem swap_iff (x y : SyscallStat δ) : swap x y = true ↔ y.key < x.key := by
  unfold swap SyscallStat.key
  rw [Prod.Lex.toLex_lt_toLex]
  simp

/-- The summary of the calls `cs`. -/
structure Summarizes (cs : List Int) (s : Stats δ) : Prop where
  /-- There is one row for each call. -/
  nodup   : (s.rows.map (·.sysno)).Nodup
  sysnos  : ∀ n, n ∈ s.rows.map (·.sysno) ↔ n ∈ cs
  calls   : ∀ r ∈ s.rows, r.calls = cs.count r.sysno
  /-- The rows of the table are printed, the most frequent calls first and then those that ended
  first. -/
  perm    : (summaryRows s).Perm s.rows
  ordered : (summaryRows s).Pairwise fun r r' =>
    r'.calls < r.calls ∨ r.calls = r'.calls ∧ cs.idxOf r.sysno < cs.idxOf r'.sysno

theorem Recorded.idxOf_lt {cs : List Int} {s : Stats δ} (h : Recorded cs s)
    (hmax : cs.eraseDups.length ≤ statsMax) {r r' : SyscallStat δ} (hr : r ∈ s.rows)
    (hr' : r' ∈ s.rows) (hlt : r.firstSeq < r'.firstSeq) :
    cs.idxOf r.sysno < cs.idxOf r'.sysno := by
  obtain ⟨i, hi, rfl⟩ := List.getElem_of_mem hr
  obtain ⟨j, hj, rfl⟩ := List.getElem_of_mem hr'
  have hseq : ∀ k (hk : k < s.rows.length), s.rows[k].firstSeq = k := by
    intro k hk
    have hget : (s.rows.map (·.firstSeq))[k]? = (List.range s.rows.length)[k]? := by rw [h.seqs]
    simpa [hk] using hget
  rw [hseq i hi, hseq j hj] at hlt
  have hrows : s.rows.Pairwise fun r r' => cs.idxOf r.sysno < cs.idxOf r'.sysno := by
    have hpairs := pairwise_idxOf_eraseDups cs
    rwa [← List.take_of_length_le hmax, ← firsts, ← h.sysnos, List.pairwise_map] at hpairs
  exact List.pairwise_iff_getElem.mp hrows i j hi hj hlt

theorem Recorded.summarizes {cs : List Int} {s : Stats δ} (h : Recorded cs s)
    (hmax : cs.eraseDups.length ≤ statsMax) : Summarizes cs s := by
  have hsysnos : s.rows.map (·.sysno) = cs.eraseDups := by
    rw [h.sysnos]
    exact List.take_of_length_le hmax
  have hperm : (summaryRows s).Perm s.rows := exchangeSortBy_perm ..
  refine ⟨?_, fun n => ?_, h.calls, hperm, ?_⟩
  · rw [hsysnos]
    exact nodup_eraseDups cs
  · rw [hsysnos, List.mem_eraseDups]
  · have hsorted : (summaryRows s).Pairwise fun r r' => r.key ≤ r'.key :=
      exchangeSortBy_sorted swap_iff s.rows
    have hdistinct : (summaryRows s).Pairwise fun r r' => r.firstSeq ≠ r'.firstSeq := by
      rw [← List.pairwise_map]
      refine (hperm.map _).nodup_iff.mpr ?_
      rw [h.seqs]
      exact List.nodup_range
    refine (hsorted.and hdistinct).imp_of_mem fun {r r'} hr hr' hle => ?_
    obtain ⟨hkey, hne⟩ := hle
    unfold SyscallStat.key at hkey
    rw [Prod.Lex.toLex_le_toLex] at hkey
    rcases hkey with hlt | ⟨heq, hseq⟩
    · exact .inl hlt
    · refine .inr ⟨heq, h.idxOf_lt hmax (hperm.mem_iff.mp hr) (hperm.mem_iff.mp hr') ?_⟩
      exact lt_of_le_of_ne hseq hne

/-- **The summary of `snoop`.** However the stops of system calls are mixed with others, the trace
ends with the process, every signal is passed on at the next resume, and the table and the summary
count the system calls that have ended. -/
theorem snoop_summarizes [Add δ] {stops : List (Stop τ)}
    (halt : Alternates false stops) {e : Report τ} (he : e.final)
    (hmax : (completed none stops).eraseDups.length ≤ statsMax) (timeDiff : τ → τ → δ)
    (entryTime : τ) :
    ∃ t : Tracer τ δ, traceLoop timeDiff entryTime (stops.map Stop.report ++ [e]) = some t ∧
      t.resumes = 0 :: stops.map Stop.delivers ∧ Summarizes (completed none stops) t.stats ∧
      ∀ fixed w, printSummary fixed t.stats w =
        w.eprint (summaryHeader ++ (summaryRows t.stats).flatMap (·.line fixed)) := by
  have hphase : InPhase none (⟨false, -1, entryTime, 0, ⟨[], 0⟩, []⟩ : Tracer τ δ) :=
    ⟨rfl, fun n hn => by cases hn⟩
  obtain ⟨t, hrun, hrec, hresumes⟩ := traceReports_stops timeDiff he hphase .empty halt
  exact ⟨t, hrun, hresumes, hrec.summarizes hmax, fun _ _ => rfl⟩

/-- The process writes, with a signal during the call, reads, writes again and exits. -/
def writes : List (Stop Nat) :=
  [.entry 1 0, .signal 10 (by decide) (by decide) none 1, .exit 1 2, .entry 0 3,
    .trap none 4, .exit 0 5,
    .entry 1 6, .exit 1 7, .entry 231 8]

theorem snoop_summarizes_writes :
    ∃ t : Tracer Nat Nat,
      traceLoop (fun a b => b - a) 0
        (writes.map Stop.report ++ [.status (.exited 0) none 9]) = some t ∧
      t.resumes = [0, 0, 10, 0, 0, 0, 0, 0, 0, 0] ∧ Summarizes [1, 0, 1] t.stats := by
  have halt : Alternates false writes := by simp [writes, Alternates]
  have he : Report.final (.status (.exited 0) none 9 : Report Nat) := rfl
  obtain ⟨t, hrun, hresumes, hsummary, -⟩ :=
    snoop_summarizes halt he (by decide) (fun a b => b - a) 0
  exact ⟨t, hrun, hresumes, hsummary⟩

end UnixCShell.Snoop
