import UnixCShell.Xv6.Log.Disk

/-!
# Crashes

The machine may stop at any time. What is left is the disk; the next boot runs `recover_from_log`,
and may be stopped itself. A run goes on through as many boots as there are.

The blocks after a recovery are those after the writes that are durable, these are the writes of
whole operations (`log_atomic`), and what is durable stays so: a later recovery leads to the same
blocks with later writes on top (`log_durable`). When `sync` has returned, a recovery leads to the
blocks as the processes saw them when it was called, with later writes on top (`log_sync`).
-/

namespace UnixCShell.Xv6.Log

open Lib

/-- Where `recover_from_log` is. -/
inductive RecoverPc where
  | head
  | install (lh : List Nat) (i : Nat)
  /-- `log.lh.n = 0`, before `write_head`. -/
  | clear
  deriving DecidableEq, Repr

/-- The machine while it boots. The record of the writes and of the operations is what was left of
it. -/
structure Recovery where
  disk   : Disk
  pc     : RecoverPc
  writes : List Write
  ops    : Nat

inductive Machine where
  | up (m : System)
  | down (r : Recovery)

inductive Machine.Act where
  | act (a : Monitor.Act (Fin nproc) Call)
  | crash
  /-- The next step of `recover_from_log`. -/
  | recover

variable (start : Nat)

def Recovery.next (r : Recovery) : Machine :=
  match r.pc with
  | .head => .down { r with pc := .install (readHead (r.disk start)) 0 }
  | .install lh i =>
    match lh[i]? with
    | some b =>
      .down { r with
        disk := Function.update r.disk b (r.disk (start + i + 1))
        pc := .install lh (i + 1) }
    | none => .down { r with pc := .clear }
  | .clear =>
    .up (System.boot (Function.update r.disk start (writeHead (r.disk start) [])) r.writes r.ops)

def Machine.step : Machine → Act → Option Machine
  | .up m, .act a => (System.step start m a).map .up
  | .up m, .crash =>
    some (.down ⟨m.shared.disk, .head, m.shared.writes.take m.shared.durable, m.shared.ops⟩)
  | .down r, .crash => some (.down { r with pc := .head })
  | .down r, .recover => some (r.next start)
  | _, _ => none

/-- A machine that is switched on. -/
def Machine.init (disk : Disk) : Machine := .down ⟨disk, .head, [], 0⟩

def Machine.disk : Machine → Disk
  | .up m => m.shared.disk
  | .down r => r.disk

/-- The writes that would survive a crash. -/
def Machine.durable : Machine → List Write
  | .up m => m.shared.writes.take m.shared.durable
  | .down r => r.writes

/-- The writes that would not. -/
def Machine.pending : Machine → List Write
  | .up m => m.shared.writes.drop m.shared.durable
  | .down _ => []

/-- The processes of a machine that is up are careful. -/
def Machine.Careful : Machine → Act → Prop
  | .up m, .act a => m.Chooses (Log.Careful start) a
  | _, _ => True

instance : ∀ M a, Decidable (Machine.Careful start M a)
  | .up m, .act a => inferInstanceAs (Decidable (m.Chooses (Log.Careful start) a))
  | .up _, .crash | .up _, .recover | .down _, _ => .isTrue trivial

/-! ## Recovery -/

variable {start} {base : Disk}

/-- The last entry for a block counts. -/
theorem recovered_last {d : Disk} {i b : Nat} (hb : (readHead (d start))[i]? = some b)
    (hlast : b ∉ (readHead (d start)).drop (i + 1)) : recovered start d b = d (start + i + 1) := by
  obtain ⟨hi, rfl⟩ := List.getElem?_eq_some_iff.mp hb
  have hlen : i < (entries start d (readHead (d start))).length := by simpa [entries] using hi
  have hget : (entries start d (readHead (d start))).get ⟨i, hlen⟩ =
      ((readHead (d start))[i], d (start + i + 1)) := by
    simp [entries]
  rw [recovered, ← List.take_append_drop i (entries start d _), replay_append,
    List.drop_eq_getElem_cons hlen, replay_cons,
    replay_of_notMem]
  · rw [List.get_eq_getElem] at hget
    rw [hget, Function.update_self]
  · rw [List.map_drop, map_fst_entries]
    exact hlast

/-- What is known during a recovery. -/
def RecoverPc.Sound (start : Nat) (base disk : Disk) (writes : List Write) : RecoverPc → Prop
  | .head => True
  | .install lh i => lh = readHead (disk start) ∧
      ∀ b, IsHome start b → b ∉ lh.drop i → disk b = contents base writes b
  | .clear => ∀ b, IsHome start b → disk b = contents base writes b

variable (start base) in
structure Recovery.Ok (r : Recovery) : Prop where
  head      : HeadOk start r.disk
  ops       : ∀ w ∈ r.writes, w.op < r.ops
  recovered : ∀ b, IsHome start b → recovered start r.disk b = contents base r.writes b
  sound     : r.pc.Sound start base r.disk r.writes

theorem diskOk_boot {disk : Disk} {writes : List Write} {ops : Nat}
    (hhead : readHead (disk start) = [])
    (hdisk : ∀ b, IsHome start b → disk b = contents base writes b)
    (hops : ∀ w ∈ writes, w.op < ops) :
    DiskOk start base (System.boot disk writes ops).shared (System.boot disk writes ops).ks := by
  have hdrop : writes.drop writes.length = [] := List.drop_length
  constructor
  case blocks => nofun
  case cache => exact hdisk
  case le => exact le_rfl
  case pending =>
    intro w hw
    change w ∈ writes.drop writes.length at hw
    rw [hdrop] at hw
    cases hw
  case ops => exact hops
  case whole =>
    intro w _ w' hw'
    change w' ∈ writes.drop writes.length at hw'
    rw [hdrop] at hw'
    cases hw'
  case quiet =>
    intro _
    refine ⟨hhead, fun b hb => ?_⟩
    show disk b = contents base (writes.take writes.length) b
    rw [List.take_length, hdisk b hb]
  case sound => exact fun t => Nat.zero_le _

variable (start base) in
/-- The invariant of the machine. -/
def Machine.Ok : Machine → Prop
  | .up m => Log.Ok m.shared m.ks ∧ DiskOk start base m.shared m.ks
  | .down r => r.Ok start base

/-- A block is installed. -/
theorem Recovery.Ok.install {r : Recovery} (h : r.Ok start base) {i b : Nat}
    (hb : (readHead (r.disk start))[i]? = some b)
    (hplace : ∀ b, IsHome start b → b ∉ (readHead (r.disk start)).drop i →
      r.disk b = contents base r.writes b) :
    Recovery.Ok start base { r with
      disk := Function.update r.disk b (r.disk (start + i + 1))
      pc := .install (readHead (r.disk start)) (i + 1) } := by
  have hhome := (h.head.2 b (List.mem_of_getElem? hb)).1
  have hheader : Function.update r.disk b (r.disk (start + i + 1)) start = r.disk start := by
    refine Function.update_of_ne ?_ _ _
    rintro rfl
    exact not_isHome_header hhome
  constructor
  case head =>
    show HeadOk start (Function.update r.disk b (r.disk (start + i + 1)))
    rw [HeadOk, hheader]
    exact h.head
  case ops => exact h.ops
  case recovered =>
    intro c hc
    rw [recovered_install h.head hb, h.recovered c hc]
  case sound =>
    refine ⟨congrArg readHead hheader.symm, fun c hc hnot => ?_⟩
    show Function.update r.disk b (r.disk (start + i + 1)) c = contents base r.writes c
    -- a block that comes again in the header is still to be installed
    by_cases hcb : c = b
    · subst hcb
      rw [Function.update_self, ← h.recovered c hc, recovered_last hb hnot]
    · rw [Function.update_of_ne hcb]
      refine hplace c hc fun hmem => hnot ?_
      obtain ⟨hi, hib⟩ := List.getElem?_eq_some_iff.mp hb
      rw [List.drop_eq_getElem_cons hi, hib, List.mem_cons] at hmem
      exact hmem.resolve_left hcb

theorem Recovery.Ok.next {r : Recovery} (h : r.Ok start base) : (r.next start).Ok start base := by
  have hsound := h.sound
  unfold Recovery.next
  split
  · next hpc =>
    refine ⟨h.head, h.ops, h.recovered, rfl, fun b hb hnot => ?_⟩
    rw [← h.recovered b hb, Log.recovered, replay_of_notMem]
    rwa [map_fst_entries]
  · next lh i hpc =>
    rw [hpc] at hsound
    obtain ⟨rfl, hplace⟩ := hsound
    split
    · next b hb => exact h.install hb hplace
    · next hnone =>
      have hdrop : (readHead (r.disk start)).drop i = [] :=
        List.drop_eq_nil_of_le (List.getElem?_eq_none_iff.mp hnone)
      exact ⟨h.head, h.ops, h.recovered,
        fun b hb => hplace b hb (by rw [hdrop]; exact List.not_mem_nil)⟩
  · next hpc =>
    rw [hpc] at hsound
    refine ⟨ok_boot _ _ _, diskOk_boot ?_ (fun b hb => ?_) h.ops⟩
    · rw [Function.update_self]
      exact readHead_writeHead _ (Nat.zero_le _) (by simp)
    · rw [Function.update_of_ne, hsound b hb]
      rintro rfl
      exact not_isHome_header hb

theorem Machine.Ok.step {M M' : Machine} {a : Act} (h : M.Ok start base) (ha : M.Careful start a)
    (hstep : M.step start a = some M') : M'.Ok start base := by
  unfold Machine.step at hstep
  split at hstep
  · next m a =>
    obtain ⟨m', hm', rfl⟩ := Option.map_eq_some_iff.mp hstep
    exact keeps_diskOk.step h ha (Monitor.Step.of_step hm')
  · next m =>
    -- a crash: the disk is as a recovery needs it, whatever a commit was about to do
    cases hstep
    refine ⟨h.2.headOk h.1, fun w hw => h.2.ops w (List.mem_of_mem_take hw),
      fun b hb => ?_, trivial⟩
    exact h.2.recovered_contents hb
  · next r =>
    cases hstep
    exact ⟨h.head, h.ops, h.recovered, trivial⟩
  · next r =>
    cases hstep
    exact h.next
  · cases hstep

theorem Machine.init_ok {disk : Disk} (h : HeadOk start disk) :
    (init disk).Ok start (recovered start disk) :=
  ⟨h, nofun, fun _ _ => rfl, trivial⟩

/-! ## What survives -/

theorem Machine.run_ok {disk : Disk} (hhead : HeadOk start disk)
    {acts : List Machine.Act} {M : Machine}
    (hcare : AllSteps (Machine.step start) (Machine.Careful start) (.init disk) acts)
    (hrun : run (Machine.step start) (.init disk) acts = some M) :
    M.Ok start (recovered start disk) :=
  run_invariant_of (fun _ _ _ h ha hstep => h.step ha hstep) hcare (init_ok hhead) hrun

/-- A recovery leads to the blocks after the durable writes. -/
theorem Machine.Ok.recovered {M : Machine} (h : M.Ok start base) {b : Nat} (hb : IsHome start b) :
    Log.recovered start M.disk b = contents base M.durable b := by
  cases M with
  | up m => exact h.2.recovered_contents hb
  | down r => exact Recovery.Ok.recovered h b hb

/-- The operation that a process is in. -/
def Pc.op : Pc → Option Nat
  | .begun op | .inOp op _ | .dirty op _ _ | .logWrite op _ _ | .logged op _ => some op
  | _ => none

theorem Pc.Sound.fresh {s : Log} {k : Pc} (h : k.Sound start s) {op : Nat} (hop : k.op = some op) :
    Fresh s op := by
  cases k with
  | begun | inOp | logged =>
    cases hop
    exact h
  | dirty | logWrite =>
    cases hop
    exact h.1
  | _ => cases hop

/-- Crash safety. At any point of any run, through any number of crashes and recoveries that are
interrupted themselves: a recovery from the disk as it is now would lead to the blocks after the
durable writes; the durable writes are those of whole operations, which have all ended; and the
processes see all writes so far. -/
theorem log_atomic {disk : Disk} (hhead : HeadOk start disk) {acts : List Machine.Act} {M : Machine}
    (hcare : AllSteps (Machine.step start) (Machine.Careful start) (.init disk) acts)
    (hrun : run (Machine.step start) (.init disk) acts = some M) :
    (∀ b, IsHome start b → recovered start M.disk b = contents (recovered start disk) M.durable b) ∧
    (∀ w ∈ M.durable, ∀ w' ∈ M.pending, w.op ≠ w'.op) ∧
    ∀ m, M = .up m →
      (∀ t op, (m.ks t).op = some op → ∀ w ∈ M.durable, w.op ≠ op) ∧
      ∀ b, IsHome start b → m.shared.cache b =
        contents (recovered start disk) m.shared.writes b := by
  have hok := Machine.run_ok hhead hcare hrun
  refine ⟨fun b hb => hok.recovered hb, ?_⟩
  cases M with
  | up m =>
    refine ⟨hok.2.whole, ?_⟩
    rintro _ ⟨⟩
    exact ⟨fun t op hop => ((hok.2.sound t).fresh hop).2, hok.2.cache⟩
  | down r => exact ⟨nofun, nofun⟩

/-- A boot, an operation that writes one block, and a commit up to the header. -/
def commitActs : List Machine.Act :=
  [.recover, .recover, .recover] ++ (opActs 0 40 fun _ => 7).map .act ++
    ([.next 0, .next 0, .next 0, .outside 0 .go, .outside 0 .go, .outside 0 .go] :
      List (Monitor.Act (Fin nproc) Call)).map .act

theorem headOk_zero : HeadOk 2 fun _ _ => 0 := ⟨Nat.zero_le _, nofun⟩

/-- A crash right behind the commit point. -/
theorem log_atomic_after_commit :
    ∃ M, run (Machine.step 2) (.init fun _ _ => 0) (commitActs ++ [.crash]) = some M ∧
    M.durable.length = 1 ∧ recovered 2 M.disk 40 =
      contents (recovered 2 fun _ _ => 0) M.durable 40 := by
  obtain ⟨M, hrun, hdurable⟩ : ∃ M,
    run (Machine.step 2) (.init fun _ _ => 0) (commitActs ++ [.crash]) = some M ∧
      M.durable.length = 1 := exists_run_of_any (by decide +kernel)
  exact ⟨M, hrun, hdurable, (log_atomic headOk_zero (by decide +kernel) hrun).1 40 (by decide)⟩

/-! ## What is durable stays durable -/

theorem Inside.writes_eq {s s' : Log} {k k' : Pc} (h : Inside s k (.update s' k')) :
    s'.writes = s.writes ∧ s'.durable = s.durable := by
  cases h <;> exact ⟨rfl, rfl⟩

theorem Outside.writes_le {s s' : Log} {k k' : Pc} {c : Call}
    (h : Outside start s k c (.update s' k')) :
    s.writes <+: s'.writes ∧ (s.durable ≤ s.writes.length → s.durable ≤ s'.durable) := by
  cases h with
  | write op mine b data => exact ⟨List.prefix_append _ _, fun _ => le_rfl⟩
  | writeHead i hi => exact ⟨List.prefix_refl _, id⟩
  | _ => exact ⟨List.prefix_refl _, fun _ => le_rfl⟩

theorem take_prefix_take {α : Type*} {xs ys : List α} {n m : Nat} (h : xs <+: ys) (hle : n ≤ m)
    (hn : n ≤ xs.length) :
    xs.take n <+: ys.take m := by
  obtain ⟨zs, rfl⟩ := h
  calc
    xs.take n = (xs ++ zs).take n := (List.take_append_of_le_length hn).symm
    _ <+: (xs ++ zs).take m := List.take_prefix_take_left hle

/-- The writes `ws` are durable. -/
theorem keeps_durable (ws : List Write) : Monitor.Keeps (program start) (Careful start) fun s ks =>
    (Log.Ok s ks ∧ DiskOk start base s ks) ∧ ws <+: s.writes.take s.durable where
  update {t s ks s' k'} hs h := by
    obtain ⟨hwrites, hdurable⟩ := (Inside.of_eq h).writes_eq
    exact ⟨keeps_diskOk.update hs.1 h, by rw [hwrites, hdurable]; exact hs.2⟩
  ifKilled hs h :=
    ⟨⟨(keeps_diskOk.ifKilled hs.1 h).1, hs.2⟩, (keeps_diskOk.ifKilled hs.1 h).2, hs.2⟩
  wakeup hs h := ⟨keeps_diskOk.wakeup hs.1 h, hs.2⟩
  wait hs h := ⟨keeps_diskOk.wait hs.1 h, hs.2⟩
  release hs h := ⟨keeps_diskOk.release hs.1 h, hs.2⟩
  enter hs hcare h := ⟨keeps_diskOk.enter hs.1 hcare h, hs.2⟩
  change {t s ks a s' k'} hs hcare h := by
    obtain ⟨hwrites, hdurable⟩ := (Outside.of_eq h).writes_le
    have hle := hs.1.2.le
    exact ⟨keeps_diskOk.change hs.1 hcare h,
      hs.2.trans (take_prefix_take hwrites (hdurable hle) hle)⟩

theorem Machine.durable_step {M M' : Machine} {a : Act} {ws : List Write} (h : M.Ok start base)
    (hws : ws <+: M.durable) (ha : M.Careful start a) (hstep : M.step start a = some M') :
    ws <+: M'.durable := by
  unfold Machine.step at hstep
  split at hstep
  · next m a =>
    obtain ⟨m', hm', rfl⟩ := Option.map_eq_some_iff.mp hstep
    exact ((keeps_durable ws).step ⟨h, hws⟩ ha (Monitor.Step.of_step hm')).2
  · cases hstep
    exact hws
  · cases hstep
    exact hws
  · next r =>
    cases hstep
    unfold Recovery.next
    split
    · exact hws
    · split <;> exact hws
    · show ws <+: r.writes.take r.writes.length
      rw [List.take_length]
      exact hws
  · cases hstep

/-- If `d` has the block after the writes `ws`, further writes may as well be applied to `d`. -/
theorem contents_append {base d : Disk} {ws : List Write} {b : Nat} (h : d b = contents base ws b)
    (ws' : List Write) : contents base (ws ++ ws') b = contents d ws' b := by
  rw [contents, List.map_append, replay_append]
  exact replay_congr fun _ => h.symm

theorem Machine.run_durable {M M' : Machine} (hok : M.Ok start base) {acts : List Machine.Act}
    (hcare : AllSteps (Machine.step start) (Machine.Careful start) M acts)
    (hrun : run (Machine.step start) M acts = some M') :
    M'.Ok start base ∧ M.durable <+: M'.durable :=
  run_invariant_of (I := fun M' => M'.Ok start base ∧ M.durable <+: M'.durable)
    (fun _ _ _ h ha hstep => ⟨h.1.step ha hstep, durable_step h.1 h.2 ha hstep⟩) hcare
    ⟨hok, List.prefix_refl _⟩ hrun

/-- What is durable stays durable, whatever happens: a recovery at any later time leads to the
blocks that a recovery would have led to before, with later writes on top. No operation, commit,
crash or recovery takes a write back or puts another one before it. -/
theorem log_durable {disk : Disk} (hhead : HeadOk start disk) {acts acts' : List Machine.Act}
    {M M' : Machine}
    (hcare : AllSteps (Machine.step start) (Machine.Careful start) (.init disk) acts)
    (hrun : run (Machine.step start) (.init disk) acts = some M)
    (hcare' : AllSteps (Machine.step start) (Machine.Careful start) M acts')
    (hrun' : run (Machine.step start) M acts' = some M') :
    ∃ ws, M'.durable = M.durable ++ ws ∧
      ∀ b, IsHome start b → recovered start M'.disk b = contents (recovered start M.disk) ws b := by
  have hok := Machine.run_ok hhead hcare hrun
  obtain ⟨hok', ws, hws⟩ := Machine.run_durable hok hcare' hrun'
  refine ⟨ws, hws.symm, fun b hb => ?_⟩
  rw [hok'.recovered hb, ← hws, contents_append (hok.recovered hb)]

/-- A crash, and a recovery that is interrupted. -/
theorem log_durable_crash : ∃ M M', run (Machine.step 2) (.init fun _ _ => 0) commitActs = some M ∧
    run (Machine.step 2) M [.crash, .recover, .crash] = some M' ∧ M.durable.length = 1 ∧
    ∃ ws, M'.durable = M.durable ++ ws ∧
      ∀ b, IsHome 2 b → recovered 2 M'.disk b = contents (recovered 2 M.disk) ws b := by
  obtain ⟨M, hrun, hdurable⟩ : ∃ M, run (Machine.step 2) (.init fun _ _ => 0) commitActs = some M ∧
      M.durable.length = 1 := exists_run_of_any (by decide +kernel)
  obtain ⟨M', hrun'⟩ : ∃ M', run (Machine.step 2) M [.crash, .recover, .crash] = some M' := by
    cases M <;> exact ⟨_, rfl⟩
  refine ⟨M, M', hrun, hrun', hdurable, log_durable headOk_zero (by decide +kernel) hrun ?_ hrun'⟩
  refine allSteps_of_forall_mem (fun a ha M => ?_) M
  cases a with
  | act => simp at ha
  | crash | recover => cases M <;> trivial

/-! ## `sync` -/

/-- The process is in a call of `sync` that was made after the writes `ws`, or has come back from
it. -/
def InSync (ws : List Write) (s : Log) (k : Pc) : Prop :=
  ws <+: s.writes ∧
    (k = .sync ws.length ∨ (∃ n, k = .syncWait n ws.length) ∨ k = .synced ws.length ∨
      k = .idle ws.length)

theorem follows_inSync (t : Fin nproc) (ws : List Write) :
    Monitor.Follows (program start) t (InSync ws) where
  update {s k s' k'} hs h := by
    have hi := Inside.of_eq h
    refine ⟨by rw [hi.writes_eq.1]; exact hs.1, ?_⟩
    obtain rfl | ⟨n, rfl⟩ | rfl | rfl := hs.2
    · cases hi with
      | syncBusy => exact .inr (.inl ⟨_, rfl⟩)
      | syncIdle => exact .inr (.inr (.inl rfl))
    · cases hi with
      | syncEnd => exact .inr (.inr (.inl rfl))
    · cases hi
    · cases hi
  ifKilled _ h := nomatch Inside.of_eq h
  wakeup {s k c k'} hs h := by
    obtain rfl | ⟨n, rfl⟩ | rfl | rfl := hs.2 <;> cases Inside.of_eq h
  wait {s k c k'} hs h := by
    refine ⟨hs.1, ?_⟩
    obtain rfl | ⟨n, rfl⟩ | rfl | rfl := hs.2
    · cases Inside.of_eq h
    · cases Inside.of_eq h with
      | syncWait => exact .inr (.inl ⟨n, rfl⟩)
    · cases Inside.of_eq h
    · cases Inside.of_eq h
  release {s k k'} hs h := by
    refine ⟨hs.1, ?_⟩
    obtain rfl | ⟨n, rfl⟩ | rfl | rfl := hs.2
    · cases Inside.of_eq h with
      | out _ hout => cases hout
    · cases Inside.of_eq h with
      | out _ hout => cases hout
    · cases Inside.of_eq h with
      | synced => exact .inr (.inr (.inr rfl))
      | out _ hout => cases hout
    · cases Inside.of_eq h with
      | out => exact .inr (.inr (.inr rfl))
  others {u s k ku s' ku'} _ hs h := ⟨by rw [(Inside.of_eq h).writes_eq.1]; exact hs.1, hs.2⟩
  change {u s k ku a s' ku'} _ hs h := ⟨hs.1.trans (Outside.of_eq h).writes_le.1, hs.2⟩

/-- When a process comes back from `sync`, everything that was written before the call is
durable. -/
theorem sync_prefix {m m' : System}
    (hok : Log.Ok m.shared m.ks ∧ DiskOk start base m.shared m.ks) {t : Fin nproc}
    {acts : List (Monitor.Act (Fin nproc) Call)}
    (hcare : AllSteps (System.step start) (Monitor.Chooses (Careful start)) m
      (.outside t .sync :: acts))
    (hrun : run (System.step start) m (.outside t .sync :: acts) = some m')
    (hone : ∀ c, .outside t c ∉ acts) {mark : Nat} (hback : m'.locks.pc t = .outside (.idle mark)) :
    m.shared.writes <+: m'.shared.writes.take m'.shared.durable := by
  have hend := (Monitor.run_keeps keeps_diskOk hcare hok hrun).2
  have hmark : mark ≤ m'.shared.durable := by
    have := hend.sound t
    rwa [Monitor.ks, hback] at this
  -- the process stays in this call of `sync`, which has recorded how many writes there were
  obtain ⟨m₁, hstep, hrest⟩ := run_cons hrun
  have hstart : InSync m.shared.writes m₁.shared (m₁.ks t) := by
    cases Monitor.Step.of_step hstep with
    | enter _ k k' _ hpc hcall =>
      refine ⟨List.prefix_refl _, .inl ?_⟩
      rw [Monitor.ks_goto_self]
      cases Outside.of_eq hcall with
      | sync => rfl
    | change _ k s' k' _ hpc hcall => cases Outside.of_eq hcall
  have hchoose : AllSteps (System.step start) (Monitor.Chooses fun u _ _ => u ≠ t) m₁ acts := by
    refine Monitor.allSteps_chooses (fun u c hmem => ?_) m₁
    rintro rfl
    exact hone c hmem
  obtain ⟨hwrites, hplace⟩ :=
    Monitor.run_keeps (follows_inSync t m.shared.writes).keeps hchoose hstart hrest
  rw [Monitor.ks, hback] at hplace
  have hlen : mark = m.shared.writes.length := by
    obtain h | ⟨n, h⟩ | h | h := hplace <;> cases h
    rfl
  have := take_prefix_take hwrites (hlen ▸ hmark) le_rfl
  rwa [List.take_length] at this

/-- When a process has come back from `sync`, whatever the others have done in the meantime: the
writes from before the call are durable, and a recovery leads to the blocks as the processes saw
them when `sync` was called, with later writes on top. -/
theorem log_sync {disk : Disk} (hhead : HeadOk start disk) {acts : List Machine.Act} {m m' : System}
    (hcare : AllSteps (Machine.step start) (Machine.Careful start) (.init disk) acts)
    (hrun : run (Machine.step start) (.init disk) acts = some (.up m)) {t : Fin nproc}
    {acts' : List (Monitor.Act (Fin nproc) Call)}
    (hcare' : AllSteps (System.step start) (Monitor.Chooses (Careful start)) m
      (.outside t .sync :: acts'))
    (hrun' : run (System.step start) m (.outside t .sync :: acts') = some m')
    (hone : ∀ c, .outside t c ∉ acts') {mark : Nat}
    (hback : m'.locks.pc t = .outside (.idle mark)) :
    ∃ ws, m'.shared.writes.take m'.shared.durable = m.shared.writes ++ ws ∧
      ∀ b, IsHome start b → recovered start m'.shared.disk b = contents m.shared.cache ws b := by
  have hok : Log.Ok m.shared m.ks ∧ DiskOk start (recovered start disk) m.shared m.ks :=
    Machine.run_ok hhead hcare hrun
  obtain ⟨ws, hws⟩ := sync_prefix hok hcare' hrun' hone hback
  refine ⟨ws, hws.symm, fun b hb => ?_⟩
  rw [(Monitor.run_keeps keeps_diskOk hcare' hok hrun').2.recovered_contents hb, ← hws,
    contents_append (hok.2.cache b hb)]

/-- A process calls `sync` while another one is at the end of its operation, and then commits. -/
def syncCommitActs : List (Monitor.Act (Fin nproc) Call) :=
  List.replicate 5 (.next 1) ++ List.replicate 3 (.next 0) ++ List.replicate 7 (.outside 0 .go) ++
    List.replicate 69 (.next 0) ++ List.replicate 4 (.next 1)

/-- The system of a machine that is up. -/
def Machine.system? : Machine → Option System
  | .up m => some m
  | .down _ => none

theorem log_sync_commit : ∃ m m' : System,
    run (Machine.step 2) (.init fun _ _ => 0)
      ([.recover, .recover, .recover] ++ (opActs 0 40 fun _ => 7).map .act) =
      some (.up m) ∧ run (System.step 2) m (.outside 1 .sync :: syncCommitActs) = some m' ∧
        m.shared.writes.length = 1 ∧
    ∃ ws, m'.shared.writes.take m'.shared.durable = m.shared.writes ++ ws ∧
      ∀ b, IsHome 2 b → recovered 2 m'.shared.disk b = contents m.shared.cache ws b := by
  have hany : ((run (Machine.step 2) (.init fun _ _ => 0)
      ([.recover, .recover, .recover] ++ (opActs 0 40 fun _ => 7).map .act)).bind fun M =>
        M.system?.bind fun m =>
        (run (System.step 2) m (.outside 1 .sync :: syncCommitActs)).map fun m' => (m, m')).any
      (fun x => x.1.shared.writes.length = 1 ∧ x.2.locks.pc 1 = .outside (.idle 1)) =
        true := by decide +kernel
  obtain ⟨⟨m, m'⟩, hboth, hend⟩ := (Option.any_eq_true _ _).mp hany
  obtain ⟨M, hrun, hM⟩ := Option.bind_eq_some_iff.mp hboth
  obtain ⟨m₀, hup, hm⟩ := Option.bind_eq_some_iff.mp hM
  obtain ⟨m₁, hrun', heq⟩ := Option.map_eq_some_iff.mp hm
  cases heq
  obtain ⟨hone, hback⟩ : m.shared.writes.length = 1 ∧ m'.locks.pc 1 = .outside (.idle 1) :=
    of_decide_eq_true hend
  cases M with
  | down r => cases hup
  | up m₀ =>
    cases hup
    have hothers : ∀ c, .outside 1 c ∉ syncCommitActs := by
      simp [syncCommitActs, (by decide : ¬ nproc = 1)]
    have hcare' : AllSteps (System.step 2) (Monitor.Chooses (Careful 2)) m
        (.outside 1 .sync :: syncCommitActs) := by
      refine allSteps_of_forall_mem (fun a ha m => ?_) m
      have hgo : writing (m.ks 0) .go = none := by cases m.ks 0 <;> rfl
      have hsync : writing (m.ks 1) .sync = none := by cases m.ks 1 <;> rfl
      simp only [syncCommitActs, List.mem_cons, List.mem_append, List.mem_replicate] at ha
      obtain rfl | (((⟨-, rfl⟩ | ⟨-, rfl⟩) | ⟨-, rfl⟩) | ⟨-, rfl⟩) | ⟨-, rfl⟩ := ha
      · simp [Monitor.Chooses, Careful, Frugal, hsync]
      · trivial
      · trivial
      · simp [Monitor.Chooses, Careful, Frugal, hgo]
      · trivial
      · trivial
    exact ⟨m, m', hrun, hrun', hone,
      log_sync headOk_zero (by decide +kernel) hrun hcare' hrun' hothers hback⟩

end UnixCShell.Xv6.Log
