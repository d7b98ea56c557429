import UnixCShell.Hop.Run

/-!
# Hop after hop

`run_hop` takes its arguments one after the other, up to the first that fails: two lists of
arguments in one command are two commands, unless the first one fails (`runHop_append`), and an
argument that fails changes nothing (`runHop_fails`). Over any number of commands `prev_dir` is the
directory that was left last (`Reached.prevDir_eq`).
-/

namespace UnixCShell

variable (env : HopEnv)

/-! ## One argument after the other -/

/-- All arguments succeed. -/
def hopSucceeds : (Nat → Int64) → List Str → HopState → Bool
  | _, [], _ => true
  | clock, arg :: args, s =>
    match hopOne env (clock 0) s arg with
    | (_, false) => false
    | (s, true) => hopSucceeds (fun n => clock (n + 1)) args s

variable {env} {clock : Nat → Int64} {s s' : HopState} {arg : Str} {args : List Str}

theorem hopLoop_cons_of_success (h : hopOne env (clock 0) s arg = (s', true)) :
    hopLoop env clock (arg :: args) s = hopLoop env (fun n => clock (n + 1)) args s' := by
  rw [hopLoop, h]

theorem hopLoop_cons_of_failure (h : hopOne env (clock 0) s arg = (s', false)) :
    hopLoop env clock (arg :: args) s = s' := by
  rw [hopLoop, h]

/-- Two arguments. -/
theorem hopLoop_pair {s'' : HopState} {arg' : Str} (h : hopOne env (clock 0) s arg = (s', true))
    (h' : hopOne env (clock 1) s' arg' = (s'', true)) : hopLoop env clock [arg, arg'] s = s'' := by
  have hrest : hopLoop env (fun n => clock (n + 1)) [arg'] s' = s'' := hopLoop_cons_of_success h'
  rw [hopLoop_cons_of_success h, hrest]

theorem hopLoop_append (args₁ args₂ : List Str) :
    hopLoop env clock (args₁ ++ args₂) s =
      if hopSucceeds env clock args₁ s then
        hopLoop env (fun n => clock (n + args₁.length)) args₂ (hopLoop env clock args₁ s)
      else hopLoop env clock args₁ s := by
  induction args₁ generalizing clock s with
  | nil => rfl
  | cons arg args ih =>
    rw [List.cons_append, hopSucceeds]
    rcases hone : hopOne env (clock 0) s arg with ⟨s', ok⟩
    cases ok with
    | false => rw [hopLoop_cons_of_failure hone, hopLoop_cons_of_failure hone]; rfl
    | true =>
      rw [hopLoop_cons_of_success hone, hopLoop_cons_of_success hone, ih]
      simp only [List.length_cons, Nat.add_assoc]

theorem runHop_of_ne_nil (h : args ≠ []) : runHop env clock s args = hopLoop env clock args s :=
  if_neg h

/-- Two lists of arguments. -/
theorem runHop_append {args₁ args₂ : List Str} (h₁ : args₁ ≠ []) (h₂ : args₂ ≠ []) :
    runHop env clock s (args₁ ++ args₂) =
      if hopSucceeds env clock args₁ s then
        runHop env (fun n => clock (n + args₁.length)) (runHop env clock s args₁) args₂
      else runHop env clock s args₁ := by
  rw [runHop_of_ne_nil h₁, runHop_of_ne_nil h₂,
    runHop_of_ne_nil (List.append_ne_nil_of_left_ne_nil h₁ _),
    hopLoop_append]

/-- The directories and the database are the same. -/
structure HopState.Same (s s' : HopState) : Prop where
  cwd     : s'.world.cwd = s.world.cwd
  prevDir : s'.prevDir = s.prevDir
  db      : s'.db = s.db

theorem HopState.same_complain (s : HopState) : s.Same s.complain := ⟨rfl, rfl, rfl⟩

/-- An argument that fails does not do more than to print a message. -/
theorem hopOne_of_failure {now : Int64} (h : (hopOne env now s arg).2 = false) :
    hopOne env now s arg = (s.complain, false) := by
  rw [hopOne_eq] at h ⊢
  split at h
  · cases h
  · unfold doChdir at h ⊢
    split at h
    · rfl
    · cases h
  · rfl

/-- Neither the arguments behind it nor the argument that fails change anything. -/
theorem runHop_fails {args₁ args₂ : List Str} (hsucceeds : hopSucceeds env clock args₁ s = true)
    (hfails : (hopOne env (clock args₁.length) (hopLoop env clock args₁ s) arg).2 = false) :
    runHop env clock s (args₁ ++ arg :: args₂) = (hopLoop env clock args₁ s).complain := by
  have hrest : hopLoop env (fun n => clock (n + args₁.length)) (arg :: args₂)
    (hopLoop env clock args₁ s) =
      (hopLoop env clock args₁ s).complain := by
    apply hopLoop_cons_of_failure
    rw [Nat.zero_add]
    exact hopOne_of_failure hfails
  rw [runHop_of_ne_nil (List.append_ne_nil_of_right_ne_nil _ (List.cons_ne_nil _ _)),
    hopLoop_append,
    if_pos hsucceeds, hrest]

/-! ## The directories that are left -/

variable (env)

/-- The directory that is left when an argument changes it. -/
def leftOne (now : Int64) (s : HopState) (arg : Str) : List Str :=
  match leadsTo env now s arg with
  | .goes target => if (env.chdir s.world.cwd target).isSome then [s.world.cwd] else []
  | .stays | .nowhere => []

/-- The directories that the loop leaves, one after the other. -/
def leftLoop : (Nat → Int64) → List Str → HopState → List Str
  | _, [], _ => []
  | clock, arg :: args, s =>
    leftOne env (clock 0) s arg ++
      match hopOne env (clock 0) s arg with
      | (_, false) => []
      | (s, true) => leftLoop (fun n => clock (n + 1)) args s

/-- The directories that one command leaves. -/
def leftRun (clock : Nat → Int64) (s : HopState) (args : List Str) : List Str :=
  if args = [] then leftOne env (clock 0) s "~".toList else leftLoop env clock args s

variable {env}

/-- A state of the shell, together with the directories that have been left until then. Between two
hops anything else may happen, only `prev_dir` is not touched. -/
inductive Reached : HopState → List Str → Prop
  | start (world : World) (db : Option Str) : Reached ⟨world, [], db⟩ []
  | hop {s : HopState} {left : List Str} (env : HopEnv) (clock : Nat → Int64) (args : List Str) :
      Reached s left → Reached (runHop env clock s args) (left ++ leftRun env clock s args)
  | other {s : HopState} {left : List Str} (world : World) (db : Option Str) :
      Reached s left → Reached ⟨world, s.prevDir, db⟩ left

/-- `getcwd` has told the directories that have been left. -/
def Known (left : List Str) : Prop := ∀ d ∈ left, d ≠ [] ∧ getcwd d = some d

theorem Known.of_append {left left' : List Str} (h : Known (left ++ left')) :
    Known left ∧ Known left' :=
  ⟨fun d hd => h d (List.mem_append_left _ hd), fun d hd => h d (List.mem_append_right _ hd)⟩

theorem doChdir_prevDir (now : Int64) {target : Str} (h : (env.chdir s.world.cwd target).isSome) :
    (doChdir env now s target).1.prevDir = (getcwd s.world.cwd).getD s.prevDir := by
  obtain ⟨cwd, hcwd⟩ := Option.isSome_iff_exists.mp h
  rw [doChdir, hcwd]

theorem doChdir_of_none (now : Int64) {target : Str} (h : env.chdir s.world.cwd target = none) :
    doChdir env now s target = (s.complain, false) := by
  rw [doChdir, h]
  rfl

/-- After one argument `prev_dir` is the directory that it has left, if it has left one. -/
theorem hopOne_prevDir (now : Int64) (arg : Str) (h : Known (leftOne env now s arg)) :
    (hopOne env now s arg).1.prevDir = (leftOne env now s arg).getLast?.getD s.prevDir := by
  unfold leftOne at h ⊢
  rw [hopOne_eq]
  cases hleads : leadsTo env now s arg with
  | stays => rfl
  | nowhere => rfl
  | goes target =>
    simp only [hleads] at h ⊢
    by_cases hchdir : (env.chdir s.world.cwd target).isSome
    · rw [if_pos hchdir] at h ⊢
      rw [doChdir_prevDir now hchdir, (h s.world.cwd (List.mem_singleton_self _)).2]
      rfl
    · rw [if_neg hchdir, doChdir_of_none now (Option.not_isSome_iff_eq_none.mp hchdir)]
      rfl

theorem getLast?_append_getD (left left' : List Str) (d : Str) :
    (left ++ left').getLast?.getD d = left'.getLast?.getD (left.getLast?.getD d) := by
  rw [List.getLast?_append]
  cases left'.getLast? <;> rfl

theorem hopLoop_prevDir (h : Known (leftLoop env clock args s)) :
    (hopLoop env clock args s).prevDir = (leftLoop env clock args s).getLast?.getD s.prevDir := by
  induction args generalizing clock s with
  | nil => rfl
  | cons arg args ih =>
    rw [leftLoop] at h ⊢
    obtain ⟨hfirst, hrest⟩ := h.of_append
    have hone := hopOne_prevDir (clock 0) arg hfirst
    rw [getLast?_append_getD, ← hone]
    rcases hs : hopOne env (clock 0) s arg with ⟨s', ok⟩
    cases ok with
    | false =>
      rw [hopLoop_cons_of_failure hs]
      rfl
    | true =>
      simp only [hs] at hrest
      rw [hopLoop_cons_of_success hs, ih hrest]

theorem runHop_prevDir (h : Known (leftRun env clock s args)) :
    (runHop env clock s args).prevDir = (leftRun env clock s args).getLast?.getD s.prevDir := by
  unfold runHop leftRun at *
  split at h
  · next hnil =>
    rw [if_pos hnil, if_pos hnil]
    exact hopOne_prevDir _ _ h
  · next hne =>
    rw [if_neg hne, if_neg hne]
    exact hopLoop_prevDir h

/-- `prev_dir` is the directory that was left last. -/
theorem Reached.prevDir_eq {left : List Str} (h : Reached s left) (hknown : Known left) :
    s.prevDir = left.getLast?.getD [] := by
  induction h with
  | start world db => rfl
  | hop env clock args _ ih =>
    obtain ⟨hbefore, hnow⟩ := hknown.of_append
    rw [runHop_prevDir hnow, ih hbefore, getLast?_append_getD]
  | other world db _ ih => exact ih hknown

theorem Known.getLast?_getD_eq_nil_iff {left : List Str} (h : Known left) :
    left.getLast?.getD [] = [] ↔ left = [] := by
  cases hlast : left.getLast? with
  | none => exact ⟨fun _ => List.getLast?_eq_none_iff.mp hlast, fun _ => rfl⟩
  | some d =>
    have hmem := List.mem_of_getLast? hlast
    refine ⟨fun hnil => absurd hnil (h d hmem).1, fun hnil => ?_⟩
    rw [hnil] at hmem
    cases hmem

/-- `prev_dir` is a path that fits into its buffer. -/
theorem Reached.getcwd_prevDir {left : List Str} (h : Reached s left) (hknown : Known left) :
    getcwd s.prevDir = some s.prevDir := by
  rw [h.prevDir_eq hknown]
  cases hlast : left.getLast? with
  | none => rfl
  | some d => exact (hknown d (List.mem_of_getLast? hlast)).2

/-! ## Back and forth -/

/-- The directory is there: its path leads to it, from everywhere. -/
def HopEnv.IsThere (env : HopEnv) (d : Str) : Prop := ∀ cwd, env.chdir cwd d = some d

theorem hopOne_dash (now : Int64) (hprev : s.prevDir ≠ []) (h : env.IsThere s.prevDir)
    (hcwd : getcwd s.world.cwd = some s.world.cwd) :
    ∃ db, hopOne env now s "-".toList =
      ({ world := { s.world with cwd := s.prevDir }, prevDir := s.world.cwd, db := db }, true) := by
  have hleads : leadsTo env now s "-".toList = .goes s.prevDir := by
    simp [leadsTo, hprev]
  rw [hopOne_eq, hleads]
  simp only [doChdir, h s.world.cwd, hcwd]
  exact ⟨_, rfl⟩

/-- `hop - -` ends where it has begun, with the same directory to go back to. -/
theorem runHop_dash_dash (clock : Nat → Int64)
    (hcwd : s.world.cwd ≠ [] ∧ getcwd s.world.cwd = some s.world.cwd)
    (hprev : getcwd s.prevDir = some s.prevDir) (hfrom : env.IsThere s.world.cwd)
    (hto : s.prevDir ≠ [] → env.IsThere s.prevDir) :
    (runHop env clock s ["-".toList, "-".toList]).world.cwd = s.world.cwd ∧
      (runHop env clock s ["-".toList, "-".toList]).prevDir = s.prevDir := by
  rw [runHop_of_ne_nil (List.cons_ne_nil _ _)]
  by_cases hnil : s.prevDir = []
  · -- there is nothing to go back to
    have hstays : ∀ now, hopOne env now s "-".toList = (s, true) := by
      intro now
      have hleads : leadsTo env now s "-".toList = .stays := by simp [leadsTo, hnil]
      rw [hopOne_eq, hleads]
    rw [hopLoop_pair (hstays _) (hstays _)]
    exact ⟨rfl, rfl⟩
  · obtain ⟨db, hthere⟩ := hopOne_dash (clock 0) hnil (hto hnil) hcwd.2
    obtain ⟨db', hback⟩ := @hopOne_dash env
      { world := { s.world with cwd := s.prevDir }, prevDir := s.world.cwd, db := db } (clock 1)
        hcwd.1 hfrom hprev
    rw [hopLoop_pair hthere hback]
    exact ⟨rfl, rfl⟩

/-- In every state that the shell reaches. -/
theorem hop_sequence {left : List Str} (hreached : Reached s left) (env : HopEnv)
    (clock : Nat → Int64) :
    -- one list of arguments after the other
    (∀ args₁ args₂ : List Str, args₁ ≠ [] → args₂ ≠ [] → runHop env clock s (args₁ ++ args₂) =
      if hopSucceeds env clock args₁ s then
        runHop env (fun n => clock (n + args₁.length)) (runHop env clock s args₁) args₂
      else runHop env clock s args₁) ∧
    -- an argument that fails
    (∀ (args₁ : List Str) (arg : Str) (args₂ : List Str), hopSucceeds env clock args₁ s = true →
      (hopOne env (clock args₁.length) (hopLoop env clock args₁ s) arg).2 = false →
      (hopLoop env clock args₁ s).Same (runHop env clock s (args₁ ++ arg :: args₂))) ∧
    -- the directory that was left last
    (Known left → s.prevDir = left.getLast?.getD [] ∧ (s.prevDir = [] ↔ left = [])) ∧
    -- and back
    (Known left → s.world.cwd ≠ [] → getcwd s.world.cwd = some s.world.cwd →
      env.IsThere s.world.cwd → (s.prevDir ≠ [] → env.IsThere s.prevDir) →
      (runHop env clock s ["-".toList, "-".toList]).world.cwd = s.world.cwd ∧
        (runHop env clock s ["-".toList, "-".toList]).prevDir = s.prevDir) := by
  refine ⟨fun _ _ => runHop_append, fun args₁ arg args₂ hsucceeds hfails => ?_, fun hknown => ?_,
    fun hknown hne hcwd hfrom hto => ?_⟩
  · rw [runHop_fails hsucceeds hfails]
    exact HopState.same_complain _
  · have hprev := hreached.prevDir_eq hknown
    rw [hprev]
    exact ⟨rfl, hknown.getLast?_getD_eq_nil_iff⟩
  · exact runHop_dash_dash clock ⟨hne, hcwd⟩ (hreached.getcwd_prevDir hknown) hfrom hto

/-- Every absolute path is a directory. -/
def rooted : HopEnv where
  home := "/home".toList
  chdir _ target := if target.head? = some '/' then some target else none
  resolve _ name := if name.head? = some '/' then some name else none
  lookup _ _ _ := none

/-- After `hop /tmp nowhere /etc` in `/home`. -/
def atTmp : HopState :=
  runHop rooted (fun _ => 0) ⟨World.init, [], none⟩ ["/tmp".toList, "nowhere".toList, "/etc".toList]

theorem hop_sequence_atTmp : atTmp.prevDir = World.init.cwd ∧
    (runHop rooted (fun _ => 0) atTmp ["-".toList, "-".toList]).world.cwd = "/tmp".toList := by
  have hreached : Reached atTmp [World.init.cwd] :=
    .hop rooted (fun _ => 0) _ (.start World.init none)
  have hknown : Known [World.init.cwd] := by
    unfold Known
    decide
  have hthere : ∀ d : Str, d.head? = some '/' → rooted.IsThere d := fun d hd _ => if_pos hd
  have h := (hop_sequence hreached rooted fun _ => 0).2.2
  exact ⟨(h.1 hknown).1,
    (h.2 hknown (by decide) (by decide) (hthere _ (by decide)) fun _ => hthere _ (by decide)).1⟩

end UnixCShell
