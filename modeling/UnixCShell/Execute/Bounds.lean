import UnixCShell.Execute.Decomposition
import UnixCShell.Execute.Stores

/-!
# When the arrays are large enough

Of the arrays in which a line is collected only `args` is guarded. The others are large enough if
the line is short enough, and `arrays_inBounds_iff` says how short: what counts is the smaller array
of `outreg_validate`, not those of `launch_group` that it is given, and a builtin is counted with
all that stands behind it in the line.
-/

namespace UnixCShell

open Lib UnixCShell.Parser

/-! ## Loops -/

/-- Sixteen targets fit, whether they can be opened or not. -/
theorem inBounds_validateStores (opens : Nat → Bool) {i n : Nat} (h : i + n ≤ 16) :
    InBounds Arr.size (validateStores opens i n).1 := by
  induction n generalizing i with
  | zero => exact inBounds_nil
  | succ n ih =>
    have hi : i < Arr.size .validateFds := by simp [Arr.size, outregFilesMax]; omega
    rw [validateStores]
    split
    · exact inBounds_cons.mpr ⟨hi, ih (by omega)⟩
    · exact inBounds_cons.mpr ⟨hi, inBounds_nil⟩

/-- If all targets can be opened, all are stored. -/
theorem validateStores_all {opens : Nat → Bool} (hopens : ∀ k, opens k = true) (i n : Nat) :
    (validateStores opens i n).2 = true ∧
      (i ≤ 16 ∧ InBounds Arr.size (validateStores opens i n).1 ↔ i + n ≤ 16) := by
  induction n generalizing i with
  | zero => simp [validateStores]
  | succ n ih =>
    obtain ⟨hok, hbounds⟩ := ih (i + 1)
    rw [validateStores, if_pos (hopens i)]
    refine ⟨hok, ?_⟩
    simp only [inBounds_cons, Arr.size, outregFilesMax]
    rw [show i + (n + 1) = i + 1 + n by omega, ← hbounds]
    constructor
    · exact fun h => ⟨h.2.1, h.2.2⟩
    · exact fun h => ⟨by omega, h.1, h.2⟩

/-- What the collection loop has stored is what it has collected. -/
theorem inBounds_collectStores (endExcl : List Token) {s : Stage} (h : s.args.length ≤ 127)
    (curr : List Token) :
    (s.inFiles.length ≤ 128 ∧ s.outFiles.length ≤ 128) ∧
      InBounds Arr.size (collectStores endExcl s curr) ↔
      (collectRange endExcl s curr).inFiles.length ≤ 128 ∧
        (collectRange endExcl s curr).outFiles.length ≤ 128 := by
  have hnull : InBounds Arr.size [⟨.args, s.args.length⟩] := by
    simp [Arr.size]
    omega
  fun_induction collectRange endExcl s curr with
  | case1 s => exact and_iff_left hnull
  | case2 s curr next hstop =>
    unfold collectStores
    rw [if_pos hstop]
    exact and_iff_left hnull
  | case3 s curr file next htype hgo ih =>
    unfold collectStores
    rw [if_neg hgo, htype]
    apply Iff.trans ?_ (ih h hnull)
    simp only [inBounds_cons, Arr.size, List.length_append, List.length_singleton]
    constructor
    · rintro ⟨⟨-, hout⟩, hin, hrest⟩
      exact ⟨⟨hin, hout⟩, hrest⟩
    · rintro ⟨⟨hin, hout⟩, hrest⟩
      exact ⟨⟨Nat.le_of_succ_le hin, hout⟩, hin, hrest⟩
  | case4 s curr file next htype hgo ih | case5 s curr file next htype hgo ih =>
    unfold collectStores
    rw [if_neg hgo, htype]
    apply Iff.trans ?_ (ih h hnull)
    simp only [inBounds_cons, Arr.size, List.length_append, List.length_singleton]
    constructor
    · rintro ⟨⟨hin, -⟩, hout, -, hrest⟩
      exact ⟨⟨hin, hout⟩, hrest⟩
    · rintro ⟨⟨hin, hout⟩, hrest⟩
      exact ⟨⟨hin, Nat.le_of_succ_le hout⟩, hout, hout, hrest⟩
  | case6 s curr next hlt hgt hgtgt hgo ih =>
    have hroom : s.args.length + 1 ≤ 127 := by omega
    have hstore : s.args.length < Arr.size .args := by
      simp only [Arr.size]
      omega
    have hnext : (s.args ++ [curr.value]).length ≤ 127 := by simpa using hroom
    unfold collectStores
    rw [if_neg hgo]
    apply Iff.trans ?_ (ih hnext (by simp [Arr.size]; omega))
    split
    · exact absurd rfl (hlt _ _ ‹_›)
    · exact absurd rfl (hgt _ _ ‹_›)
    · exact absurd rfl (hgtgt _ _ ‹_›)
    · rw [inBounds_cons, and_iff_right hstore]

/-! ## Groups -/

/-- The stage stays within the arrays. The targets of a stage without arguments are not opened. -/
def Stage.Fits (s : Stage) : Prop :=
  s.inFiles.length ≤ 128 ∧ s.outFiles.length ≤ 128 ∧ (s.args ≠ [] → s.outFiles.length ≤ 16)

instance (s : Stage) : Decidable s.Fits := inferInstanceAs (Decidable (_ ∧ _ ∧ _))

/-- The group stays within the arrays. -/
def Call.Fits (call : Call) : Prop := call.stages.length ≤ 128 ∧ ∀ stage ∈ call.stages, stage.Fits

instance (call : Call) : Decidable call.Fits := inferInstanceAs (Decidable (_ ∧ ∀ _ ∈ _, _))

/-- No call of the system fails. -/
def StageAnswers.granted : StageAnswers := ⟨false, fun _ => true, true⟩

def GroupAnswers.granted : GroupAnswers := ⟨fun _ => .granted, true⟩

theorem inBounds_stageStores (a : StageAnswers) {i : Nat} (hi : i < 128) {stage : Stage}
    (h : stage.Fits) :
    InBounds Arr.size (stageStores a i stage).1 := by
  unfold stageStores
  by_cases hargs : stage.args = []
  · simp [hargs, Arr.size, hi]
  · have hfds := inBounds_validateStores a.opens (i := 0) (by simpa using h.2.2 hargs)
    dsimp only
    rw [if_neg hargs]
    rcases hvalid : validateStores a.opens 0 stage.outFiles.length with ⟨fds, ok⟩
    rw [hvalid] at hfds
    split
    · simp [Arr.size, hi]
    · cases ok with
      | false => simp [Arr.size, hi, hfds]
      | true => cases a.found <;> simp [Arr.size, hi, hfds]

/-- If nothing fails, a stage with an argument is started, behind stores for all its targets. -/
theorem stageStores_granted (i : Nat) {stage : Stage} (hargs : stage.args ≠ []) :
    (stageStores .granted i stage).2 = .started ∧
      (InBounds Arr.size (stageStores .granted i stage).1 → stage.outFiles.length ≤ 16) := by
  have hopens : ∀ k, StageAnswers.granted.opens k = true := fun _ => rfl
  obtain ⟨hok, hbounds⟩ := validateStores_all hopens 0 stage.outFiles.length
  unfold stageStores
  dsimp only
  rw [if_neg hargs, if_neg (by simp [StageAnswers.granted])]
  rcases hvalid : validateStores StageAnswers.granted.opens 0 stage.outFiles.length with ⟨fds, ok⟩
  rw [hvalid] at hok hbounds
  obtain rfl : ok = true := hok
  refine ⟨rfl, fun h => ?_⟩
  have hfds : InBounds Arr.size fds := by
    simp only [StageAnswers.granted, if_true, inBounds_append] at h
    exact h.1.2
  simpa using hbounds.mp ⟨Nat.zero_le _, hfds⟩

namespace GroupAnswers

/-- The stores of a group are in bounds, in terms of its stages. -/
def Bounds (a : GroupAnswers) (stages : List Stage) : Prop :=
  stages.length ≤ 128 ∧ ∀ e ∈ stages.zipIdx,
    (e.1.inFiles.length ≤ 128 ∧ e.1.outFiles.length ≤ 128) ∧
    InBounds Arr.size (stageStores (a.stage e.2) e.2 e.1).1

theorem live_le (a : GroupAnswers) (stages : List Stage) : a.live stages ≤ stages.length := by
  have h := List.count_le_length (a := Outcome.started) (l := a.outcomes stages)
  simpa [outcomes, live] using h

end GroupAnswers

theorem inBounds_groupStores (a : GroupAnswers) (start endExcl : List Token) :
    InBounds Arr.size (groupStores a start endExcl) ↔ a.Bounds (rangeStages start endExcl) := by
  have hlive := a.live_le (rangeStages start endExcl)
  have hlength : (rangeStages start endExcl).length = (pipeStarts endExcl start).length + 1 := by
    simp [rangeStages]
  have hloop : (∀ e ∈ (start :: pipeStarts endExcl start).zipIdx,
        InBounds Arr.size (collectStores endExcl {} e.1 ++
          (stageStores (a.stage e.2) e.2 (collectRange endExcl {} e.1)).1)) ↔
      ∀ e ∈ (rangeStages start endExcl).zipIdx,
        (e.1.inFiles.length ≤ 128 ∧ e.1.outFiles.length ≤ 128) ∧
        InBounds Arr.size (stageStores (a.stage e.2) e.2 e.1).1 := by
    rw [rangeStages, List.zipIdx_map]
    simp only [List.forall_mem_map, inBounds_append, Prod.map_fst, Prod.map_snd, id_eq]
    apply forall₂_congr
    intro e _
    rw [← inBounds_collectStores endExcl (by simp) e.1]
    simp
  rw [groupStores, GroupAnswers.Bounds, ← hloop]
  simp only [inBounds_append, inBounds_flatMap, inBounds_fill, Arr.size, List.length_cons]
  grind

namespace GroupAnswers

theorem bounds_of_fits (a : GroupAnswers) {call : Call} (h : call.Fits) : a.Bounds call.stages := by
  refine ⟨h.1, fun e he => ?_⟩
  have hstage := h.2 e.1 (List.fst_mem_of_mem_zipIdx he)
  have hi : e.2 < 128 := by
    have := List.snd_lt_of_mem_zipIdx he
    have := h.1
    omega
  exact ⟨⟨hstage.1, hstage.2.1⟩, inBounds_stageStores (a.stage e.2) hi hstage⟩

theorem fits_of_granted {call : Call} (h : granted.Bounds call.stages) : call.Fits := by
  refine ⟨h.1, fun stage hstage => ?_⟩
  obtain ⟨i, hi⟩ := List.mem_iff_getElem?.mp hstage
  obtain ⟨⟨hin, hout⟩, hstores⟩ := h.2 (stage, i) (List.mem_zipIdx_iff_getElem?.mpr hi)
  exact ⟨hin, hout, fun hargs => (stageStores_granted i hargs).2 hstores⟩

/-- If nothing fails, `launch_group` returns, and does not stop the line. -/
theorem granted_result (call : Call) : granted.result call = some false := by
  have hfound : Outcome.notFound ∉ granted.outcomes call.stages := by
    intro hmem
    obtain ⟨⟨stage, i⟩, -, hout⟩ := List.mem_map.mp hmem
    by_cases hargs : stage.args = []
    · simp [stageStores, hargs] at hout
    · cases hout.symm.trans (stageStores_granted i hargs).1
  have hlone : granted.loneNotFound call.stages = false := by
    rw [loneNotFound, decide_eq_false_iff_not]
    intro hlone
    simp [hlone] at hfound
  unfold result
  split
  · rw [hlone]
  · rw [if_pos (by simp [granted])]

end GroupAnswers

/-! ## Lines -/

section Map

variable {σ τ : Type*}

/-- A run seen through `f`. -/
def mapState (f : σ → τ) : Except σ (σ × Bool) → Except τ (τ × Bool)
  | .error s => .error (f s)
  | .ok (s, loneNotFound) => .ok (f s, loneNotFound)

theorem endState_mapState (f : σ → τ) (r : Except σ (σ × Bool)) :
    endState (mapState f r) = f (endState r) := by
  cases r <;> rfl

/-- If each call of `launch_group` can be seen through `f`, so can the line. -/
theorem executeFrom_map (f : σ → τ)
    {launch : List Token → List Token → Bool → σ → Except σ (σ × Bool)}
    {launch' : List Token → List Token → Bool → τ → Except τ (τ × Bool)}
    (h : ∀ start endExcl background s,
      launch' start endExcl background (f s) = mapState f (launch start endExcl background s))
    (groupStart p : List Token) (s : σ) :
    executeFrom launch' groupStart p (f s) = mapState f (executeFrom launch groupStart p s) := by
  induction p generalizing groupStart s with
  | nil => exact h ..
  | cons t ts ih =>
    rw [executeFrom, executeFrom]
    by_cases hsep : t.type = .opSemi ∨ t.type = .opAmp
    · rw [if_pos hsep, if_pos hsep, h]
      rcases launch groupStart (t :: ts) (t.type = .opAmp) s with s' | ⟨s', loneNotFound⟩
      · rfl
      · simp only [mapState]
        split
        · rfl
        · split
          · rfl
          · exact ih ts s'
    · rw [if_neg hsep, if_neg hsep]
      exact ih groupStart s

end Map

/-- A call of `launch_group`, of whose stores only the bounds are noted. -/
def boundsCall (call : Call) : List GroupAnswers × Prop →
    Except (List GroupAnswers × Prop) ((List GroupAnswers × Prop) × Bool) :=
  answerCall (fun a p => p ∧ a.Bounds call.stages) call

/-- The stores of a line are in bounds, in terms of the calls of `launch_group`. -/
theorem inBounds_pipelineStores (answers : List GroupAnswers) (l : Line) :
    InBounds Arr.size (pipelineStores answers l.tokens) ↔
      (endState (runCalls boundsCall (l.callsWith fun c => collectStage {} c.tokens)
        (answers, True))).2 := by
  let f (s : List GroupAnswers × Trace) : List GroupAnswers × Prop := (s.1, InBounds Arr.size s.2)
  let launch start endExcl background :=
    answerCall (fun a trace => trace ++ groupStores a start endExcl)
      ⟨background, rangeStages start endExcl⟩
  have hcall : ∀ start endExcl background s,
      boundsCall ⟨background, rangeStages start endExcl⟩ (f s) =
        mapState f (launch start endExcl background s) := by
    rintro start endExcl background ⟨answers, trace⟩
    cases answers with
    | nil => rfl
    | cons a answers =>
      have hnote : (InBounds Arr.size trace ∧ a.Bounds (rangeStages start endExcl)) =
          InBounds Arr.size (trace ++ groupStores a start endExcl) := by
        rw [inBounds_append, inBounds_groupStores]
      simp only [boundsCall, launch, answerCall, f]
      cases a.result ⟨background, rangeStages start endExcl⟩ <;> simp only [mapState, hnote]
  obtain ⟨t, ts, htokens⟩ := List.exists_cons_of_ne_nil l.tokens_ne_nil
  have hstart : f (answers, []) = (answers, True) := by simp [f]
  have hrun := executeFrom_map f hcall l.tokens l.tokens (answers, [])
  rw [executeFrom_tokens readsStages_rangeStages boundsCall l, hstart] at hrun
  rw [hrun, endState_mapState, pipelineStores, htokens]
  rfl

/-- Calls that fit stay in bounds, whatever the answers are. -/
theorem runCalls_of_fits {calls : List Call} (h : ∀ call ∈ calls, call.Fits)
    (s : List GroupAnswers × Prop) (hs : s.2) : (endState (runCalls boundsCall calls s)).2 := by
  induction calls generalizing s with
  | nil => exact hs
  | cons call calls ih =>
    obtain ⟨answers, p⟩ := s
    cases answers with
    | nil => exact hs
    | cons a answers =>
      have hbounds : p ∧ a.Bounds call.stages := ⟨hs, a.bounds_of_fits (h call (by simp))⟩
      simp only [runCalls, boundsCall, answerCall]
      cases a.result call with
      | none => exact hbounds
      | some loneNotFound =>
        dsimp only
        split
        · exact hbounds
        · exact ih (fun c hc => h c (by simp [hc])) _ hbounds

/-- If nothing fails, all calls are made. -/
theorem runCalls_granted (calls : List Call) (p : Prop) :
    runCalls boundsCall calls (List.replicate calls.length .granted, p) =
      .ok (([], p ∧ ∀ call ∈ calls, GroupAnswers.granted.Bounds call.stages), false) := by
  induction calls generalizing p with
  | nil => simp [runCalls]
  | cons call calls ih =>
    simp only [runCalls, boundsCall, answerCall, List.length_cons, List.replicate_succ,
      GroupAnswers.granted_result]
    rw [if_neg (by simp)]
    exact (ih _).trans (by simp [and_assoc])

theorem pipelineStores_iff (l : Line) :
    (∀ answers, InBounds Arr.size (pipelineStores answers l.tokens)) ↔
      ∀ call ∈ l.callsWith fun c => collectStage {} c.tokens, call.Fits := by
  constructor
  · intro h call hcall
    let calls := l.callsWith fun c => collectStage {} c.tokens
    have hgranted := (inBounds_pipelineStores _ l).mp (h (List.replicate calls.length .granted))
    rw [runCalls_granted] at hgranted
    exact GroupAnswers.fits_of_granted (hgranted.2 call hcall)
  · intro h answers
    rw [inBounds_pipelineStores]
    exact runCalls_of_fits h (answers, True) trivial

/-! ## The tree -/

namespace Parser

/-- The items up to the argument `n`. -/
def readItems : Nat → List Item → List Item
  | 0, _ => []
  | _ + 1, [] => []
  | n + 1, .arg w h :: items => .arg w h :: readItems n items
  | n + 1, .redirection op target hop htarget :: items =>
    .redirection op target hop htarget :: readItems (n + 1) items

/-- The part of a command that `launch_group` reads. -/
def Command.readStage (c : Command) : Stage := stageOf (readItems 127 c.items)

end Parser

theorem collectStage_readItems (items : List Item) (s : Stage) :
    collectStage s (items.flatMap Item.tokens) =
      let read := readItems (127 - s.args.length) items
      ⟨s.args ++ read.filterMap Item.arg?, s.inFiles ++ read.filterMap Item.input?,
        s.outFiles ++ read.filterMap Item.output?⟩ := by
  induction items generalizing s with
  | nil => cases h : 127 - s.args.length <;> simp [readItems, collectStage]
  | cons i items ih =>
    rw [List.flatMap_cons, collectStage_item]
    by_cases hfull : 127 ≤ s.args.length
    · simp [hfull, Nat.sub_eq_zero_of_le hfull, readItems]
    · obtain ⟨n, hn⟩ : ∃ n, 127 - s.args.length = n + 1 := ⟨126 - s.args.length, by omega⟩
      rw [if_neg hfull, ih, hn]
      cases i with
      | arg w hw =>
        have hn' : 127 - (s.args.length + 1) = n := by omega
        simp [Stage.add, readItems, filterMap_cons_eq, Item.arg?, Item.input?, Item.output?, hn']
      | redirection op target hop htarget =>
        simp [Stage.add, readItems, filterMap_cons_eq, Item.arg?, hn]

theorem Parser.Command.collectStage_tokens (c : Command) :
    collectStage {} c.tokens = c.readStage := by
  simp [Command.tokens, collectStage_readItems, Command.readStage, stageOf]

theorem Parser.Line.callsWith_readStage (l : Line) :
    (l.callsWith fun c => collectStage {} c.tokens) = l.callsWith Command.readStage :=
  Line.callsWith_congr fun c _ => c.collectStage_tokens

/-! ## Builtins -/

/-- What `strip_redirections` has stored is what it has taken out. -/
theorem inBounds_stripStores (inCount outCount : Nat) (ts : List Token) :
    (inCount ≤ 16 ∧ outCount ≤ 16) ∧ InBounds Arr.size (stripStores inCount outCount ts) ↔
      inCount + (stripLoop ts).2.1.length ≤ 16 ∧ outCount + (stripLoop ts).2.2.length ≤ 16 := by
  fun_induction stripLoop ts generalizing inCount outCount with
  | case1 op file rest hredir kept inFiles outFiles hrest hlt ih =>
    have hnext := ih (inCount + 1) outCount
    rw [hrest] at hnext
    rw [stripStores, if_pos hredir, if_pos hlt, List.length_cons, ← Nat.add_assoc,
      Nat.add_right_comm, ← hnext]
    simp only [inBounds_cons, Arr.size]
    constructor
    · rintro ⟨⟨-, hout⟩, hin, hstores⟩
      exact ⟨⟨hin, hout⟩, hstores⟩
    · rintro ⟨⟨hin, hout⟩, hstores⟩
      exact ⟨⟨Nat.le_of_succ_le hin, hout⟩, hin, hstores⟩
  | case2 op file rest hredir kept inFiles outFiles hrest hlt ih =>
    have hnext := ih inCount (outCount + 1)
    rw [hrest] at hnext
    rw [stripStores, if_pos hredir, if_neg hlt, List.length_cons, ← Nat.add_assoc,
      Nat.add_right_comm, ← hnext]
    simp only [inBounds_cons, Arr.size]
    constructor
    · rintro ⟨⟨hin, -⟩, hout, -, hstores⟩
      exact ⟨⟨hin, hout⟩, hstores⟩
    · rintro ⟨⟨hin, hout⟩, hstores⟩
      exact ⟨⟨hin, Nat.le_of_succ_le hout⟩, hout, hout, hstores⟩
  | case3 op file rest hredir kept inFiles outFiles hrest ih =>
    have hnext := ih inCount outCount
    rw [hrest] at hnext
    rwa [stripStores, if_neg hredir]
  | case4 ts hts =>
    unfold stripStores
    split
    · exact absurd rfl (hts _ _ _)
    · simp

/-- Where an accepted line has no word behind a token, the token is not a redirection operator. -/
theorem not_redirection {prev t : Token} {ts : List Token}
    (h : validSyntaxLoop (some prev) (t :: ts) = true)
    (hword : ∀ w, ts.head? = some w → ¬ (isRedirection t.type && w.type == .word) = true) :
    t.type ≠ .opLt ∧ ¬ (t.type = .opGt ∨ t.type = .opGtgt) := by
  have hredir : ¬ isRedirection t.type = true := by
    intro hredir
    obtain ⟨w, hw, htype⟩ := validSyntaxLoop_target h hredir
    exact hword w hw (by simp [hredir, htype])
  simpa [isRedirection, or_assoc] using hredir

/-- In an accepted line every redirection operator is taken out. -/
theorem length_stripLoop {prev : Token} {ts : List Token}
    (h : validSyntaxLoop (some prev) ts = true) :
    (stripLoop ts).2.1.length = ts.countP (fun t => t.type = .opLt) ∧
      (stripLoop ts).2.2.length = ts.countP (fun t => t.type = .opGt ∨ t.type = .opGtgt) := by
  fun_induction stripLoop ts generalizing prev with
  | case1 op file rest hredir kept inFiles outFiles hrest hlt ih =>
    obtain ⟨hin, hout⟩ := ih (validSyntaxLoop_tail (validSyntaxLoop_tail h))
    rw [hrest] at hin hout
    have hfile : file.type = .word := by simpa using (Bool.and_eq_true_iff.mp hredir).2
    simp_all
  | case2 op file rest hredir kept inFiles outFiles hrest hlt ih =>
    obtain ⟨hin, hout⟩ := ih (validSyntaxLoop_tail (validSyntaxLoop_tail h))
    rw [hrest] at hin hout
    have hfile : file.type = .word := by simpa using (Bool.and_eq_true_iff.mp hredir).2
    have hgt : op.type = .opGt ∨ op.type = .opGtgt := by
      simpa [isRedirection, hlt] using (Bool.and_eq_true_iff.mp hredir).1
    simp_all
  | case3 op file rest hredir kept inFiles outFiles hrest ih =>
    obtain ⟨hin, hout⟩ := ih (validSyntaxLoop_tail h)
    rw [hrest] at hin hout
    obtain ⟨hlt, hgt⟩ := not_redirection h (by
      rintro w ⟨⟩
      exact hredir)
    exact ⟨hin.trans (List.countP_cons_of_neg (by simpa using hlt)).symm,
      hout.trans (List.countP_cons_of_neg (by simpa using hgt)).symm⟩
  | case4 ts hts =>
    cases ts with
    | nil => exact ⟨rfl, rfl⟩
    | cons t ts =>
      obtain rfl : ts = [] := by
        cases ts with
        | nil => rfl
        | cons u us => exact absurd rfl (hts t u us)
      obtain ⟨hlt, hgt⟩ := not_redirection h (by simp)
      rw [List.countP_cons_of_neg (by simpa using hlt),
        List.countP_cons_of_neg (by simpa using hgt)]
      exact ⟨rfl, rfl⟩

/-- An argument that `peek` takes for flags. -/
def isFlags : Str → Bool
  | '-' :: _ :: _ => true
  | _ => false

/-- Flags that make `peek` give up. -/
def badFlags (arg : Str) : Bool := isFlags arg && !(arg.tail.all fun c => c = 'n' || c = 'r')

/-- The files of `peek`, up to flags that make it give up. -/
def peekOperands (args : List Token) : List Str :=
  ((args.map Token.value).takeWhile fun arg => !badFlags arg).filter fun arg => !isFlags arg

theorem readFlags_isSome (cs : Str) (a : Peek.Args) :
    (Peek.readFlags cs a).isSome = cs.all fun c => c = 'n' || c = 'r' := by
  induction cs generalizing a with
  | nil => rfl
  | cons c cs ih =>
    rw [Peek.readFlags, List.all_cons]
    by_cases hn : c = 'n'
    · simp [hn, ih]
    · by_cases hr : c = 'r'
      · simp [hr, ih]
      · simp [hn, hr]

theorem inBounds_peekStores (fileCount : Nat) (ts : List Token) :
    fileCount ≤ 100 ∧ InBounds Arr.size (peekStores fileCount ts) ↔
      fileCount + (peekOperands ts).length ≤ 100 := by
  fun_induction peekStores fileCount ts with
  | case1 => simp [peekOperands, Arr.size]
  | case2 fileCount h => simp [peekOperands]
  | case3 fileCount t ts c cs hvalue hflags ih =>
    rw [readFlags_isSome] at hflags
    have hoperands : peekOperands (t :: ts) = peekOperands ts := by
      simp [peekOperands, hvalue, badFlags, isFlags, hflags]
    rw [ih, hoperands]
  | case4 fileCount t ts c cs hvalue hflags =>
    rw [readFlags_isSome] at hflags
    have hoperands : peekOperands (t :: ts) = [] := by
      simp [peekOperands, hvalue, badFlags, isFlags, hflags]
    simp [hoperands]
  | case5 fileCount t ts hvalue ih =>
    have hflags : isFlags t.value = false := by
      unfold isFlags
      split
      · exact absurd ‹_› (hvalue _ _)
      · rfl
    have hoperands : peekOperands (t :: ts) = t.value :: peekOperands ts := by
      simp [peekOperands, badFlags, hflags]
    rw [hoperands, List.length_cons, inBounds_cons]
    simp only [Arr.size]
    grind

/-- The builtin stays within the arrays of `exec_cmd`, and within that of `run_peek`. -/
def BuiltinFits (tokens : List Token) : Prop :=
  tokens.countP (fun t => t.type = .opLt) ≤ 16 ∧
    tokens.countP (fun t => t.type = .opGt ∨ t.type = .opGtgt) ≤ 16 ∧
    (tokens.head?.map Token.value = some "peek".toList →
      (peekOperands (stripRedirections tokens).1.tail).length ≤ 100)

instance (tokens : List Token) : Decidable (BuiltinFits tokens) :=
  inferInstanceAs (Decidable (_ ∧ _ ∧ (_ → _)))

def BuiltinAnswers.granted : BuiltinAnswers := ⟨true, fun _ => true, true⟩

theorem inBounds_runBuiltinStores (tokens : List Token) :
    InBounds Arr.size (runBuiltinStores tokens) ↔
      (tokens.head?.map Token.value = some "peek".toList →
        (peekOperands tokens.tail).length ≤ 100) := by
  unfold runBuiltinStores
  split
  · rename_i hpeek
    simpa [hpeek] using inBounds_peekStores 0 tokens.tail
  · rename_i hpeek
    exact iff_of_true inBounds_nil fun h => absurd h hpeek

/-- The stores of a builtin for which nothing fails. -/
theorem builtinStores_granted {tokens : List Token}
    (h : InBounds Arr.size (builtinStores .granted tokens)) :
    InBounds Arr.size (stripStores 0 0 tokens.tail) ∧
      InBounds Arr.size (runBuiltinStores (stripRedirections tokens).1) := by
  rcases hstrip : stripRedirections tokens with ⟨kept, inFiles, outFiles⟩
  have hopens : ∀ k, BuiltinAnswers.granted.opens k = true := fun _ => rfl
  have hok := (validateStores_all hopens 0 outFiles.length).1
  rcases hvalid : validateStores BuiltinAnswers.granted.opens 0 outFiles.length with ⟨fds, ok⟩
  obtain rfl : ok = true := by rwa [hvalid] at hok
  simp only [builtinStores, hstrip, hvalid] at h
  rw [if_neg (by simp [BuiltinAnswers.granted])] at h
  split at h
  · exact inBounds_append.mp h
  · simp only [inBounds_append] at h
    exact ⟨h.1.1.1, h.1.2⟩

theorem inBounds_builtinStores (a : BuiltinAnswers) {tokens : List Token}
    (hstrip : InBounds Arr.size (stripStores 0 0 tokens.tail))
    (hrun : InBounds Arr.size (runBuiltinStores (stripRedirections tokens).1))
    (hout : (stripRedirections tokens).2.2.length ≤ 16) :
    InBounds Arr.size (builtinStores a tokens) := by
  have hfds := inBounds_validateStores a.opens (i := 0) (by simpa using hout)
  unfold builtinStores
  dsimp only
  split
  · exact hstrip
  · split
    · exact inBounds_append.mpr ⟨hstrip, hrun⟩
    · rcases hvalid : validateStores a.opens 0 (stripRedirections tokens).2.2.length with ⟨fds, ok⟩
      rw [hvalid] at hfds
      cases ok with
      | false => exact inBounds_append.mpr ⟨hstrip, hfds⟩
      | true =>
        simp only [inBounds_append]
        refine ⟨⟨⟨hstrip, hfds⟩, hrun⟩, ?_⟩
        split
        · exact inBounds_fill.mpr hout
        · exact inBounds_nil

theorem builtinStores_iff {tokens : List Token} (h : validSyntax tokens = true)
    (hne : tokens ≠ []) :
    (∀ a, InBounds Arr.size (builtinStores a tokens)) ↔ BuiltinFits tokens := by
  obtain ⟨t, ts, rfl⟩ := List.exists_cons_of_ne_nil hne
  have hword : t.type = .word := by
    by_contra hword
    simp [validSyntax, validSyntaxLoop, hword] at h
  have hloop : validSyntaxLoop (some t) ts = true := by
    simpa [validSyntax, validSyntaxLoop, hword, isRedirection] using h
  obtain ⟨hin, hout⟩ := length_stripLoop hloop
  have hstrip : InBounds Arr.size (stripStores 0 0 ts) ↔
      (t :: ts).countP (fun t => t.type = .opLt) ≤ 16 ∧
        (t :: ts).countP (fun t => t.type = .opGt ∨ t.type = .opGtgt) ≤ 16 := by
    have h16 := inBounds_stripStores 0 0 ts
    rw [hin, hout] at h16
    rw [List.countP_cons_of_neg (by simp [hword]), List.countP_cons_of_neg (by simp [hword])]
    simpa using h16
  have hrun := inBounds_runBuiltinStores (stripRedirections (t :: ts)).1
  constructor
  · intro hall
    obtain ⟨h₁, h₂⟩ := builtinStores_granted (hall .granted)
    obtain ⟨hlt, hgt⟩ := hstrip.mp h₁
    exact ⟨hlt, hgt, hrun.mp h₂⟩
  · rintro ⟨hlt, hgt, hpeek⟩ a
    have htargets : (stripRedirections (t :: ts)).2.2.length ≤ 16 := by
      rw [List.countP_cons_of_neg (by simp [hword])] at hgt
      exact hout.trans_le hgt
    have hstores : InBounds Arr.size (stripStores 0 0 (t :: ts).tail) := hstrip.mpr ⟨hlt, hgt⟩
    exact inBounds_builtinStores a hstores (hrun.mpr hpeek) htargets

/-! ## Accepted lines -/

/-- The line stays within all arrays. -/
def Parser.Line.ArraysFit (l : Line) : Prop :=
  if startsBuiltin l.tokens then BuiltinFits l.tokens
  else ∀ call ∈ l.callsWith Command.readStage, call.Fits

instance (l : Line) : Decidable l.ArraysFit :=
  inferInstanceAs (Decidable (if startsBuiltin l.tokens then _ else
    ∀ call ∈ l.callsWith Command.readStage, call.Fits))

/-- The stores for an accepted line are in bounds, whatever the system answers, if and only if the
line is a builtin with at most 16 input files and 16 targets, and 100 files if it is `peek`; or each
of its groups has at most 128 commands, each with at most 128 input files, and with at most 16
targets, or 128 if it has no argument. What stands behind the argument 127 of a command is not
read. -/
theorem arrays_inBounds_iff {tokens : List Token} (h : validSyntax tokens = true) :
    (∀ a : Answers, InBounds Arr.size (execStores a tokens)) ↔
      ∀ l : Line, l.tokens = tokens → l.ArraysFit := by
  by_cases hne : tokens = []
  · subst hne
    constructor
    · intro _ l hl
      exact absurd hl l.tokens_ne_nil
    · intro _ a
      exact inBounds_nil
  obtain ⟨l, rfl⟩ := exists_line h hne
  have hline : (∀ l' : Line, l'.tokens = l.tokens → l'.ArraysFit) ↔ l.ArraysFit := by
    constructor
    · exact fun hall => hall l rfl
    · intro hfit l' hl'
      obtain rfl := Line.tokens_injective hl'
      exact hfit
  rw [hline, Line.ArraysFit]
  simp only [execStores]
  split
  · rw [← builtinStores_iff h hne]
    exact ⟨fun hall a => hall ⟨a, []⟩, fun hall a => hall a.builtin⟩
  · rw [← l.callsWith_readStage, ← pipelineStores_iff]
    exact ⟨fun hall answers => hall ⟨.granted, answers⟩, fun hall a => hall a.groups⟩

/-- The operators `<` and `>`. -/
def redirectIn : Token := ⟨.opLt, ['<']⟩
def redirectOut : Token := ⟨.opGt, ['>']⟩

theorem arrays_inBounds_ls : validSyntax [word "ls", redirectOut, word "out"] = true ∧
    ∀ a : Answers, InBounds Arr.size (execStores a [word "ls", redirectOut, word "out"]) := by
  refine ⟨rfl, (arrays_inBounds_iff rfl).mpr fun l hl => ?_⟩
  let ls : Line :=
    .last ⟨[.arg (word "ls") rfl, .redirection redirectOut (word "out") rfl rfl], by simp⟩
  obtain rfl : l = ls := Line.tokens_injective hl
  decide

/-- Each of the four functions can be made to store past the end of an array: `outreg_validate` by
17 targets, `strip_redirections` by 17 input files of a builtin, `run_peek` by 101 files and
`launch_group` by 129 commands. -/
theorem arrays_overflow :
    let granted : Answers := ⟨.granted, [.granted]⟩
    let targets := word "ls" :: (List.replicate 17 [redirectOut, word "out"]).flatten
    let inputs := word "hop" :: (List.replicate 17 [redirectIn, word "in"]).flatten
    let files := word "peek" :: List.replicate 101 (word "file")
    let commands := word "ls" :: (List.replicate 128 [pipe, word "wc"]).flatten
    (validSyntax targets = true ∧ ⟨.validateFds, Arr.size .validateFds⟩ ∈
      execStores granted targets) ∧
    (validSyntax inputs = true ∧ ⟨.execInFiles, Arr.size .execInFiles⟩ ∈
      execStores granted inputs) ∧
    (validSyntax files = true ∧ ⟨.peekFiles, Arr.size .peekFiles⟩ ∈ execStores granted files) ∧
    (validSyntax commands = true ∧
        ⟨.cmdStarts, Arr.size .cmdStarts⟩ ∈ execStores granted commands) := by
  decide +kernel

end UnixCShell
