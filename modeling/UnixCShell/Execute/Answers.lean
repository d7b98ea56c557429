import UnixCShell.Execute.Bounds

/-!
# The stores of a world

The answers of the operating system in a given `World`, read off step by step: the stores of a line
in that world are those for these answers. `launchGroup_result` says that the two models of
`launch_group` get equally far, and `World.inBounds_execStores` that a line that fits is in bounds
in every world.
-/

namespace UnixCShell

open Lib UnixCShell.Parser

/-! ## Targets -/

theorem validateStores_ok (opens : Nat → Bool) (i n : Nat) :
    (validateStores opens i n).2 = true ↔ ∀ k < n, opens (i + k) = true := by
  induction n generalizing i with
  | zero => simp [validateStores]
  | succ n ih =>
    rw [validateStores]
    cases hopen : opens i with
    | false =>
      simp only [Bool.false_eq_true, if_false, false_iff, not_forall]
      exact ⟨0, Nat.zero_lt_succ n, by simp [hopen]⟩
    | true =>
      rw [if_pos rfl]
      refine (ih (i + 1)).trans ⟨fun h k hk => ?_, fun h k hk => ?_⟩
      · cases k with
        | zero => exact hopen
        | succ k => simpa [Nat.add_right_comm, Nat.add_assoc] using h k (by omega)
      · simpa [Nat.add_right_comm, Nat.add_assoc] using h (k + 1) (by omega)

theorem validateTargets_take {fs : Files Str Char} {files : List (Str × Bool)}
    (h : (validateTargets fs files).2 = true) (n : Nat) :
    (validateTargets fs (files.take n)).2 = true := by
  induction files generalizing fs n with
  | nil => rwa [List.take_nil]
  | cons f files ih =>
    cases n with
    | zero => rfl
    | succ n =>
      obtain ⟨file, append⟩ := f
      rw [validateTargets] at h
      rw [List.take_succ_cons, validateTargets]
      cases hopen : fs.openWrite (!append) file with
      | none => simp [hopen] at h
      | some r =>
        rw [hopen] at h
        exact ih h n

theorem outregValidate_ok (w : World) (outFiles : List (Str × Bool)) :
    (w.outregValidate outFiles).2 =
      (validateTargets w.fs (outFiles.map fun f => (w.locate f.1, f.2))).2 := by
  rcases hvalid : validateTargets w.fs (outFiles.map fun f => (w.locate f.1, f.2)) with ⟨fs, ok⟩
  cases ok <;> simp only [World.outregValidate, hvalid]

/-- All targets can be opened if each one can, behind those in front of it. -/
theorem validateStores_outregValidate (w : World) (outFiles : List (Str × Bool)) :
    (validateStores (fun k => (w.outregValidate (outFiles.take (k + 1))).2) 0 outFiles.length).2 =
      (w.outregValidate outFiles).2 := by
  rw [Bool.eq_iff_iff, validateStores_ok]
  simp only [outregValidate_ok, List.map_take, Nat.zero_add]
  constructor
  · intro h
    cases hn : outFiles.length with
    | zero => simp [List.length_eq_zero_iff.mp hn, validateTargets]
    | succ n =>
      have hall := h n (by omega)
      rwa [List.take_of_length_le (by simp [hn])] at hall
  · intro h k _
    exact validateTargets_take h (k + 1)

/-! ## Stages -/

/-- What has become of a stage. -/
def Prepared.outcome : Prepared → Outcome
  | .skipped => .skipped
  | .notFound => .notFound
  | .ready _ _ => .started

namespace World

/-- The answers that the stage `i` gets. -/
def stageAnswers (w : World) (i : Nat) (stage : Stage) : StageAnswers :=
  let (w, input) := w.setupInput stage.inFiles i
  { missing := input = .missing
    opens k := (w.outregValidate (stage.outFiles.take (k + 1))).2
    found := ((w.outregValidate stage.outFiles).1.resolveCommandPath (stage.args.headD [])).isSome }

theorem stageStores_outcome (w : World) (i : Nat) (stage : Stage) :
    (stageStores (w.stageAnswers i stage) i stage).2 = (w.prepareStage i stage).2.outcome := by
  cases hargs : stage.args with
  | nil => simp [stageStores, prepareStage, hargs, Prepared.outcome]
  | cons cmd args =>
    have hmissing : (w.setupInput stage.inFiles i).2 = .missing → stage.inFiles ≠ [] := by
      intro hmissing hnil
      simp [setupInput, hnil] at hmissing
    rcases hsetup : w.setupInput stage.inFiles i with ⟨w₁, input⟩
    rw [hsetup] at hmissing
    rcases hvalid : w₁.outregValidate stage.outFiles with ⟨w₂, ok⟩
    have hstores := validateStores_outregValidate w₁ stage.outFiles
    rw [hvalid] at hstores
    by_cases hin : input = .missing
    · subst hin
      simp [stageStores, prepareStage, stageAnswers, hargs, hsetup, hmissing rfl, Prepared.outcome]
    · rcases hfds : validateStores (fun k => (w₁.outregValidate (stage.outFiles.take (k + 1))).2) 0
        stage.outFiles.length with ⟨fds, ok'⟩
      obtain rfl : ok' = ok := by rwa [hfds] at hstores
      have hprepare : (w.prepareStage i stage).2 =
          if ok' then ((w₂.resolveCommandPath cmd).elim .notFound fun path => .ready path input)
          else .skipped := by
        cases input with
        | missing => exact absurd rfl hin
        | fd n | none =>
          simp only [prepareStage, hargs, hsetup, hvalid]
          cases ok' with
          | false => rfl
          | true => cases hpath : w₂.resolveCommandPath cmd <;> simp [hpath]
      rw [hprepare]
      simp only [stageStores, stageAnswers, hsetup, hvalid, hfds, hargs, hin]
      cases ok' with
      | false => simp [Prepared.outcome]
      | true => cases hpath : w₂.resolveCommandPath cmd <;> simp [hpath, Prepared.outcome]

/-! ## Groups -/

/-- One round of the loop, in terms of what becomes of the stage. -/
theorem launchStage_outcome (numCmds : Nat) (pipes : List (Nat × Nat))
    (s : World × Launch) (stage : Stage) (i : Nat) :
    let outcome := (s.1.prepareStage i stage).2.outcome
    let l := (launchStage numCmds pipes s (stage, i)).2
    l.procs.length = s.2.procs.length + [outcome].count .started ∧
      l.loneNotFound = (s.2.loneNotFound || decide (outcome = .notFound) && numCmds == 1) := by
  rcases hprep : s.1.prepareStage i stage with ⟨w, prepared⟩
  simp only [launchStage, hprep]
  cases prepared with
  | skipped => simp [Prepared.outcome]
  | notFound => simp [Prepared.outcome]
  | ready path input => simp [Prepared.outcome, spawnStage]

/-- The variables of the loop in front of the stage `i`. -/
def loopState (w : World) (group : List Token) (i : Nat) : World × Launch :=
  let todo := stages group
  let (w, pipes) := w.makePipes (todo.length - 1)
  (todo.zipIdx.take i).foldl (launchStage todo.length pipes) (w, {})

/-- The answers that a call of `launch_group` gets. -/
def groupAnswers (w : World) (group : List Token) : GroupAnswers where
  stage i := (w.loopState group i).1.stageAnswers i ((stages group)[i]?.getD {})
  ends := (launchGroup group false w).isOk

/-- The loop in front of the stage `i`: a process for each stage that was started. -/
theorem loopState_outcomes (w : World) (group : List Token) {i : Nat}
    (hi : i ≤ (stages group).length) :
    let outcomes := ((w.groupAnswers group).outcomes (stages group)).take i
    let l := (w.loopState group i).2
    l.procs.length = outcomes.count .started ∧
      l.loneNotFound = (decide (.notFound ∈ outcomes) && (stages group).length == 1) := by
  induction i with
  | zero => simp [loopState]
  | succ i ih =>
    have hlt : i < (stages group).length := hi
    obtain ⟨hprocs, hlone⟩ := ih hlt.le
    let stage := (stages group)[i]
    have hstage : (stages group)[i]? = some stage := List.getElem?_eq_getElem hlt
    have hstate : w.loopState group (i + 1) = launchStage (stages group).length
        (w.makePipes ((stages group).length - 1)).2 (w.loopState group i) (stage, i) := by
      simp only [loopState]
      rw [List.take_add_one, List.foldl_append, List.getElem?_zipIdx, hstage]
      simp
    have hout : ((w.groupAnswers group).outcomes (stages group))[i]? =
        some (((w.loopState group i).1.prepareStage i stage).2.outcome) := by
      rw [← stageStores_outcome]
      simp [GroupAnswers.outcomes, hstage, groupAnswers]
    obtain ⟨hprocs', hlone'⟩ := launchStage_outcome (stages group).length
      (w.makePipes ((stages group).length - 1)).2 (w.loopState group i) stage i
    rw [hstate, List.take_add_one, hout]
    refine ⟨?_, ?_⟩
    · rw [hprocs', hprocs, List.count_append]
      rfl
    · rw [hlone', hlone]
      simp only [Option.toList_some, List.mem_append, List.mem_singleton]
      grind

theorem forkLoop_loopState (w : World) (group : List Token) :
    (w.forkLoop group).2 = (w.loopState group (stages group).length).2 := by
  simp only [forkLoop, loopState]
  rw [List.take_of_length_le (by simp)]

/-- The result of a call, if it returns. -/
def resultOf (r : Except World (World × Bool)) : Option Bool :=
  match r with
  | .error _ => none
  | .ok (_, loneNotFound) => some loneNotFound

/-- What `launch_group` returns, behind its loop. -/
theorem resultOf_launchGroup (w : World) (group : List Token) (background : Bool) :
    resultOf (launchGroup group background w) =
      if (w.forkLoop group).2.procs = [] then some (w.forkLoop group).2.loneNotFound
      else if background || (launchGroup group false w).isOk then some false else none := by
  simp only [launchGroup]
  by_cases hprocs : (w.forkLoop group).2.procs = []
  · simp [hprocs, resultOf, pure, Except.pure]
  · cases background with
    | true => simp [hprocs, resultOf, pure, Except.pure]
    | false =>
      simp only [hprocs, if_false, Bool.false_eq_true, Bool.false_or]
      rcases World.waitLoop _ _ _ with w' | ⟨w', waiter⟩ <;>
        simp [resultOf, bind, Except.bind, pure, Except.pure, Except.isOk, Except.toBool]

/-- With the answers of the world, `launch_group` returns what it returns in the world. -/
theorem launchGroup_result (w : World) (group : List Token) (background : Bool) :
    resultOf (launchGroup group background w) =
      (w.groupAnswers group).result ⟨background, stages group⟩ := by
  obtain ⟨hprocs, hlone⟩ := w.loopState_outcomes group le_rfl
  have hlength : ((w.groupAnswers group).outcomes (stages group)).length =
      (stages group).length := by
    simp [GroupAnswers.outcomes]
  rw [List.take_of_length_le hlength.le, ← forkLoop_loopState] at hprocs hlone
  rw [resultOf_launchGroup, GroupAnswers.result, hlone]
  have hlive : (w.forkLoop group).2.procs = [] ↔
      (w.groupAnswers group).live (stages group) = 0 := by
    rw [GroupAnswers.live, ← hprocs, List.length_eq_zero_iff]
  have hone : (decide (.notFound ∈ (w.groupAnswers group).outcomes (stages group)) &&
      (stages group).length == 1) = (w.groupAnswers group).loneNotFound (stages group) := by
    rw [GroupAnswers.loneNotFound, ← hlength, Bool.eq_iff_iff]
    rcases (w.groupAnswers group).outcomes (stages group) with _ |
      ⟨o, _ | ⟨o', os⟩⟩ <;> simp [eq_comm]
  simp only [hlive, hone]
  rfl

end World

/-! ## Lines -/

theorem collectRange_nil (s : Stage) (ts : List Token) :
    collectRange [] s ts = collectStage s ts := by
  fun_induction collectStage s ts with
  | case1 s => rfl
  | case2 s t ts hstop =>
    unfold collectRange
    rw [if_pos (Or.inr hstop)]
  | case3 s t hgo file ts htype ih | case4 s t hgo file ts htype ih
  | case5 s t hgo file ts htype ih =>
    unfold collectRange
    rw [if_neg (by simpa using hgo), htype]
    exact ih
  | case6 s t hgo ts hlt hgt hgtgt ih =>
    unfold collectRange
    rw [if_neg (by simpa using hgo)]
    split
    · exact absurd rfl (hlt _ _ ‹_›)
    · exact absurd rfl (hgt _ _ ‹_›)
    · exact absurd rfl (hgtgt _ _ ‹_›)
    · exact ih

/-- A group by itself is a range up to the end of the list. -/
theorem rangeStages_nil (group : List Token) : rangeStages group [] = stages group := by
  have hstarts : group :: pipeStarts [] group = cmdStarts group := by
    rw [cmdStarts, List.cons.injEq]
    refine ⟨rfl, ?_⟩
    induction group with
    | nil => rfl
    | cons t ts ih =>
      rw [pipeStarts, if_neg (by simp), List.tails, List.filterMap_cons]
      split <;> simp_all
  rw [rangeStages, stages, hstarts]
  apply List.map_congr_left
  intro ts _
  exact collectRange_nil {} ts

/-- The groups of a line, each with its `background`. -/
def splitGroups (group : List Token) : List Token → List (List Token × Bool)
  | [] => [(group, false)]
  | t :: ts =>
    if t.type = .opSemi ∨ t.type = .opAmp then
      (group, t.type = .opAmp) :: if ts = [] then [] else splitGroups [] ts
    else splitGroups (group ++ [t]) ts

/-- What every group of a line preserves, the line preserves. -/
theorem executeGroups_invariant {σ : Type*} {launch : List Token → Bool → σ → Except σ (σ × Bool)}
    {P : σ → Prop} {group tokens : List Token}
    (h : ∀ g ∈ splitGroups group tokens, ∀ s, P s → P (endState (launch g.1 g.2 s)))
    {s : σ} (hs : P s) :
    P (endState (executeGroups launch group tokens s)) := by
  induction tokens generalizing group s with
  | nil => exact h (group, false) (by simp [splitGroups]) s hs
  | cons t ts ih =>
    rw [executeGroups]
    rw [splitGroups] at h
    by_cases hsep : t.type = .opSemi ∨ t.type = .opAmp
    · rw [if_pos hsep] at h ⊢
      have hgroup := h (group, t.type = .opAmp) (by simp) s hs
      rcases hlaunch : launch group (t.type = .opAmp) s with s' | ⟨s', loneNotFound⟩
      · rwa [hlaunch] at hgroup
      · rw [hlaunch] at hgroup
        dsimp only
        split
        · exact hgroup
        · split
          · exact hgroup
          · rename_i hts
            refine ih (fun g hg => h g ?_) hgroup
            rw [if_neg hts]
            exact List.mem_cons_of_mem _ hg
    · rw [if_neg hsep] at h ⊢
      exact ih h hs

/-- The groups of a line, as `launch_group` reads them, are the calls of its tree. -/
theorem splitGroups_tokens (l : Line) :
    (splitGroups [] l.tokens).map (fun g => (⟨g.2, stages g.1⟩ : Call)) =
      l.callsWith fun c => collectStage {} c.tokens := by
  let record (call : Call) (calls : List Call) : Except (List Call) (List Call × Bool) :=
    .ok (calls ++ [call], false)
  have hcalls : ∀ calls pre, runCalls record calls pre = .ok (pre ++ calls, false) := by
    intro calls
    induction calls with
    | nil => simp [runCalls]
    | cons call calls ih =>
      intro pre
      simp [runCalls, record, ih]
  have hgroups : ∀ tokens group pre,
      executeGroups (fun group background => record ⟨background, stages group⟩) group tokens pre =
        .ok (pre ++ (splitGroups group tokens).map fun g => ⟨g.2, stages g.1⟩, false) := by
    intro tokens
    induction tokens with
    | nil => simp [executeGroups, splitGroups, record]
    | cons t ts ih =>
      intro group pre
      rw [executeGroups, splitGroups]
      split
      · dsimp only [record]
        rw [if_neg (by simp)]
        by_cases hts : ts = []
        · simp [hts]
        · rw [if_neg hts, if_neg hts]
          exact (ih [] _).trans (by simp)
      · exact ih _ pre
  obtain ⟨t, ts, htokens⟩ := List.exists_cons_of_ne_nil l.tokens_ne_nil
  have hrun := executePipeline_tokens record l []
  rw [hcalls, executePipeline.eq_def, htokens] at hrun
  rw [htokens]
  simpa using (hgroups (t :: ts) [] []).symm.trans hrun

namespace World

/-- `launch_group`, with its stores. -/
def launchStores (group : List Token) (background : Bool) (s : World × Trace) :
    Except (World × Trace) ((World × Trace) × Bool) :=
  let trace := s.2 ++ groupStores (s.1.groupAnswers group) group []
  mapState (·, trace) (launchGroup group background s.1)

/-- The answers that a builtin gets. -/
def builtinAnswers (w : World) (tokens : List Token) : BuiltinAnswers :=
  let (_, inFiles, outFiles) := stripRedirections tokens
  let (w, stdin) := w.swapStdin inFiles
  { input := stdin.isSome
    opens k := (w.outregValidate (outFiles.take (k + 1))).2
    saved := (w.swapStdout outFiles).2.any fun (_, savedStdout) => savedStdout.isSome }

/-- The stores of `exec_cmd`. -/
def execStores (w : World) (tokens : List Token) : Trace :=
  if startsBuiltin tokens then builtinStores (w.builtinAnswers tokens) tokens
  else (endState (executePipeline launchStores tokens (w, []))).2

/-- A line that fits stays in bounds in every world. -/
theorem inBounds_execStores {tokens : List Token} (h : validSyntax tokens = true)
    (hfit : ∀ l : Line, l.tokens = tokens → l.ArraysFit) (w : World) :
    InBounds Arr.size (w.execStores tokens) := by
  by_cases hne : tokens = []
  · subst hne
    exact inBounds_nil
  obtain ⟨l, rfl⟩ := exists_line h hne
  have hline := hfit l rfl
  rw [Line.ArraysFit] at hline
  rw [execStores]
  split at hline
  · rename_i hbuiltin
    rw [if_pos hbuiltin]
    exact (builtinStores_iff h hne).mpr hline _
  · rename_i hbuiltin
    rw [if_neg hbuiltin]
    rw [← l.callsWith_readStage, ← splitGroups_tokens] at hline
    obtain ⟨t, ts, htokens⟩ := List.exists_cons_of_ne_nil hne
    rw [executePipeline.eq_def, htokens]
    rw [htokens] at hline
    apply executeGroups_invariant (P := fun s : World × Trace => InBounds Arr.size s.2) _
      inBounds_nil
    rintro ⟨group, background⟩ hg ⟨w', trace⟩ htrace
    rw [launchStores, endState_mapState, inBounds_append, inBounds_groupStores, rangeStages_nil]
    have hgroup : Call.Fits ⟨background, stages group⟩ := hline _ (List.mem_map_of_mem hg)
    exact ⟨htrace, GroupAnswers.bounds_of_fits _ hgroup⟩

end World

end UnixCShell
