import UnixCShell.Execute.Basic

/-!
# Lines in sequence

Is the line `A ; B` the line `A` followed by the line `B`? `execute_pipeline` is compositional in
this sense (`executeGroups_append`), but `exec_cmd` decides once for the whole line whether it is a
builtin. `sequencing_iff` says that the two agree if and only if `A` does not begin with a builtin,
and `B` does not either or is not reached.
-/

namespace UnixCShell

open UnixCShell.Parser

/-- The operator `;`. -/
def semi : Token := ⟨.opSemi, [';']⟩

section Sequence

variable {σ : Type*}

/-- One line after the other, unless a lone command of the first was not found. -/
def andThen (first : Except σ (σ × Bool)) (second : σ → Except σ (σ × Bool)) :
    Except σ (σ × Bool) :=
  match first with
  | .error s => .error s
  | .ok (s, stop) => if stop then .ok (s, true) else second s

/-- The line does not end in `;` or `&`. -/
def Closed (tokens : List Token) : Prop :=
  ∀ t, tokens.getLast? = some t → t.type ≠ .opSemi ∧ t.type ≠ .opAmp

theorem Closed.tail {t : Token} {ts : List Token} (h : Closed (t :: ts)) : Closed ts := by
  intro u hu
  apply h u
  cases ts with
  | nil => cases hu
  | cons v vs => rwa [List.getLast?_cons_cons]

theorem validSyntaxLoop_getLast? {prev : Option Token} {ts : List Token}
    (h : validSyntaxLoop prev ts = true) {t : Token} (ht : ts.getLast? = some t) :
    t.type ≠ .opSemi := by
  induction ts generalizing prev with
  | nil => cases ht
  | cons u us ih =>
    intro hsemi
    cases us with
    | nil =>
      obtain rfl : u = t := by simpa using ht
      simp [validSyntaxLoop, hsemi, isRedirection, noCommandNext] at h
    | cons v vs =>
      rw [List.getLast?_cons_cons] at ht
      rw [validSyntaxLoop] at h
      have hrest : validSyntaxLoop (some u) (v :: vs) = true := by
        grind
      exact ih hrest ht hsemi

theorem closed_of_validSyntax {tokens : List Token} (h : validSyntax tokens = true)
    (hamp : ¬ EndsInAmp tokens) : Closed tokens := by
  intro t ht
  cases tokens with
  | nil => cases ht
  | cons u us =>
    refine ⟨validSyntaxLoop_getLast? h ht, fun htype => hamp ?_⟩
    rw [EndsInAmp, ht]
    exact congrArg some htype

/-- The groups of a line that is followed by `;` and another line. -/
theorem executeGroups_append (launch : List Token → Bool → σ → Except σ (σ × Bool))
    {A B : List Token} (hA : Closed A) (hB : B ≠ []) (group : List Token) (s : σ) :
    executeGroups launch group (A ++ semi :: B) s =
      andThen (executeGroups launch group A s) (executeGroups launch [] B) := by
  induction A generalizing group s with
  | nil =>
    have hforeground : decide (semi.type = .opAmp) = false := rfl
    rw [List.nil_append, executeGroups, executeGroups, if_pos (.inl rfl), hforeground]
    cases launch group false s with
    | error e => rfl
    | ok r => simp [andThen, semi, hB]
  | cons t ts ih =>
    rw [List.cons_append, executeGroups, executeGroups]
    by_cases hsep : t.type = .opSemi ∨ t.type = .opAmp
    · -- a separator is not the last token, so that a group follows on both sides
      have hts : ts ≠ [] := by
        rintro rfl
        have := hA t rfl
        exact hsep.elim this.1 this.2
      rw [if_pos hsep, if_pos hsep]
      cases launch group (t.type = .opAmp) s with
      | error e => rfl
      | ok r =>
        obtain ⟨s', notFound⟩ := r
        simp only [hts, if_false, List.append_eq_nil_iff, false_and]
        split
        · rfl
        · exact ih hA.tail [] s'
    · rw [if_neg hsep, if_neg hsep]
      exact ih hA.tail _ s

theorem execCmdWith_groups (launch : List Token → Bool → σ → Except σ (σ × Bool))
    (builtin : List Token → σ → Except σ σ) {A : List Token} (hne : A ≠ [])
    (hb : startsBuiltin A = false) (s : σ) :
    execCmdWith launch builtin A s = executeGroups launch [] A s := by
  obtain ⟨a, as, rfl⟩ := List.exists_cons_of_ne_nil hne
  simp [execCmdWith, hb, executePipeline]

/-- The first word of a line is that of its first part. -/
theorem startsBuiltin_append {A : List Token} (hne : A ≠ []) (B : List Token) :
    startsBuiltin (A ++ B) = startsBuiltin A := by
  obtain ⟨a, as, rfl⟩ := List.exists_cons_of_ne_nil hne
  rfl

/-- `exec_cmd` on a sequence that does not begin with a builtin. -/
theorem execCmdWith_append (launch : List Token → Bool → σ → Except σ (σ × Bool))
    (builtin : List Token → σ → Except σ σ) {A B : List Token} (hA : Closed A)
    (hA' : A ≠ []) (hB : B ≠ []) (hbA : startsBuiltin A = false) (s : σ) :
    execCmdWith launch builtin (A ++ semi :: B) s =
      andThen (execCmdWith launch builtin A s) (executeGroups launch [] B) := by
  rw [execCmdWith_groups launch builtin hA' hbA,
    execCmdWith_groups launch builtin (by simp) ((startsBuiltin_append hA' _).trans hbA),
    executeGroups_append launch hA hB]

/-- Neither part begins with a builtin, or the second is not reached. -/
theorem execCmdWith_sequence (launch : List Token → Bool → σ → Except σ (σ × Bool))
    (builtin : List Token → σ → Except σ σ) {A B : List Token} (hA : Closed A)
    (hA' : A ≠ []) (hB : B ≠ []) (hbA : startsBuiltin A = false) {s : σ}
    (hbB : startsBuiltin B = false ∨ ∃ s', execCmdWith launch builtin A s = .ok (s', true)) :
    execCmdWith launch builtin (A ++ semi :: B) s =
      andThen (execCmdWith launch builtin A s) (execCmdWith launch builtin B) := by
  rw [execCmdWith_append launch builtin hA hA' hB hbA]
  rcases hbB with hbB | ⟨s', hs'⟩
  · congr 1
    funext s'
    exact (execCmdWith_groups launch builtin hB hbB s').symm
  · rw [hs']
    rfl

end Sequence

/-! ## Which commands are run -/

/-- A call of `launch_group`, or of `run_builtin`. -/
inductive Ran where
  | group (tokens : List Token) (background : Bool)
  | builtin (tokens : List Token)
  deriving DecidableEq, Repr

section Commands

-- whether a group is a lone command that is not found may depend on all that was run before
variable (notFound : List Ran → List Token → Bool → Bool)

/-- The groups are recorded. -/
def recordGroup (group : List Token) (background : Bool) (ran : List Ran) :
    Except (List Ran) (List Ran × Bool) :=
  .ok (ran ++ [.group group background], notFound ran group background)

/-- The builtins are recorded. -/
def recordBuiltin (tokens : List Token) (ran : List Ran) : Except (List Ran) (List Ran) :=
  .ok (ran ++ [.builtin tokens])

/-- What `exec_cmd` runs. -/
def commands : List Token → List Ran → Except (List Ran) (List Ran × Bool) :=
  execCmdWith (recordGroup notFound) recordBuiltin

/-- A line that does not begin with a builtin runs a group first. -/
theorem executeGroups_record (group tokens : List Token) (ran : List Ran) :
    ∃ first background rest stop, executeGroups (recordGroup notFound) group tokens ran =
      .ok (ran ++ .group first background :: rest, stop) := by
  induction tokens generalizing group ran with
  | nil => exact ⟨group, false, [], _, rfl⟩
  | cons t ts ih =>
    rw [executeGroups]
    split
    · simp only [recordGroup]
      split
      · exact ⟨group, _, [], true, rfl⟩
      · split
        · exact ⟨group, _, [], false, rfl⟩
        · obtain ⟨first, background, rest, stop, h⟩ :=
            ih [] (ran ++ [.group group (t.type = .opAmp)])
          refine ⟨group, t.type = .opAmp, .group first background :: rest, stop, ?_⟩
          rw [h, List.append_assoc]
          rfl
    · exact ih _ ran

/-- Every line runs something. -/
theorem commands_eq (tokens : List Token) (hne : tokens ≠ []) (ran : List Ran) :
    ∃ first rest stop, commands notFound tokens ran = .ok (ran ++ first :: rest, stop) := by
  obtain ⟨t, ts, rfl⟩ := List.exists_cons_of_ne_nil hne
  unfold commands execCmdWith
  cases hb : startsBuiltin (t :: ts) with
  | true => exact ⟨.builtin (t :: ts), [], false, rfl⟩
  | false =>
    obtain ⟨group, background, rest, stop, h⟩ := executeGroups_record notFound [] (t :: ts) ran
    exact ⟨.group group background, rest, stop, h⟩

/-- A sequence that begins with a builtin is not its two parts: one command is run, not two or
more. -/
theorem startsBuiltin_of_sequence {A B : List Token} (hA : A ≠ []) (hB : B ≠ []) {ran : List Ran}
    (h : commands notFound (A ++ semi :: B) ran =
      andThen (commands notFound A ran) (commands notFound B)) : startsBuiltin A = false := by
  by_contra hb
  rw [Bool.not_eq_false] at hb
  have hwhole : commands notFound (A ++ semi :: B) ran =
      .ok (ran ++ [.builtin (A ++ semi :: B)], false) := by
    rw [commands, execCmdWith, startsBuiltin_append hA, if_pos hb]
    rfl
  have hfirst : commands notFound A ran = .ok (ran ++ [.builtin A], false) := by
    rw [commands, execCmdWith, if_pos hb]
    rfl
  obtain ⟨first, rest, stop, hsecond⟩ := commands_eq notFound B hB (ran ++ [.builtin A])
  rw [hwhole, hfirst] at h
  change Except.ok _ = commands notFound B _ at h
  rw [hsecond] at h
  have hlength := congrArg List.length (Prod.mk.inj (Except.ok.inj h)).1
  simp at hlength

/-- Behind a first part that is not left early, the second part is not a builtin. -/
theorem startsBuiltin_of_reached {A B : List Token} (hA : Closed A) (hA' : A ≠ []) (hB : B ≠ [])
    (hbA : startsBuiltin A = false) {ran ran' : List Ran}
    (hreach : commands notFound A ran = .ok (ran', false))
    (h : commands notFound (A ++ semi :: B) ran =
      andThen (commands notFound A ran) (commands notFound B)) : startsBuiltin B = false := by
  by_contra hb
  rw [Bool.not_eq_false] at hb
  have hsecond : commands notFound B ran' = .ok (ran' ++ [.builtin B], false) := by
    rw [commands, execCmdWith, if_pos hb]
    rfl
  obtain ⟨first, background, rest, stop, hgroups⟩ := executeGroups_record notFound [] B ran'
  have hwhole : commands notFound (A ++ semi :: B) ran =
      andThen (commands notFound A ran) (executeGroups (recordGroup notFound) [] B) :=
    execCmdWith_append _ _ hA hA' hB hbA ran
  rw [hwhole, hreach] at h
  change executeGroups _ [] B ran' = commands notFound B ran' at h
  rw [hgroups, hsecond] at h
  have hran := List.append_cancel_left (Prod.mk.inj (Except.ok.inj h)).1
  cases hran

end Commands

/-- The line `A ; B` runs the commands of the line `A` and then, unless a lone command of `A` was
not found, those of the line `B`, if and only if `A` does not begin with a builtin, and `B` does not
either or is not reached. Then the two are the same for the shell as a whole. -/
theorem sequencing_iff {A B : List Token} (hA : validSyntax A = true)
    (hampA : ¬ EndsInAmp A) (hneA : A ≠ []) (hneB : B ≠ []) :
    (∀ notFound ran, commands notFound (A ++ semi :: B) ran =
        andThen (commands notFound A ran) (commands notFound B) ↔
      startsBuiltin A = false ∧
        (startsBuiltin B = false ∨ ∃ ran', commands notFound A ran = .ok (ran', true))) ∧
    ∀ run (w : World), startsBuiltin A = false →
      (startsBuiltin B = false ∨ ∃ w', World.execCmd run A w = .ok (w', true)) →
      World.execCmd run (A ++ semi :: B) w =
        andThen (World.execCmd run A w) (World.execCmd run B) := by
  have hclosed := closed_of_validSyntax hA hampA
  refine ⟨fun notFound ran => ⟨fun h => ?_, fun ⟨hbA, hbB⟩ => ?_⟩, fun run w hbA hbB => ?_⟩
  · have hbA := startsBuiltin_of_sequence notFound hneA hneB h
    refine ⟨hbA, ?_⟩
    obtain ⟨first, rest, stop, hfirst⟩ := commands_eq notFound A hneA ran
    cases stop with
    | true => exact .inr ⟨_, hfirst⟩
    | false => exact .inl (startsBuiltin_of_reached notFound hclosed hneA hneB hbA hfirst h)
  · exact execCmdWith_sequence _ _ hclosed hneA hneB hbA hbB
  · exact execCmdWith_sequence _ _ hclosed hneA hneB hbA hbB

theorem sequencing_ls_wc :
    commands (fun _ _ _ => false) [word "ls", semi, word "wc"] [] =
      andThen (commands (fun _ _ _ => false) [word "ls"] [])
        (commands (fun _ _ _ => false) [word "wc"]) := by
  have hls : ¬ EndsInAmp [word "ls"] := by simp [EndsInAmp, word]
  exact ((sequencing_iff (A := [word "ls"]) rfl hls (by simp) (by simp)).1 _ _).mpr ⟨rfl, .inl rfl⟩

/-- In `hop ; ls` the words `;` and `ls` are arguments of `hop`, and in `ls ; hop` the second
command is launched as a program. -/
theorem not_sequencing_hop :
    commands (fun _ _ _ => false) [word "hop", semi, word "ls"] [] =
      .ok ([.builtin [word "hop", semi, word "ls"]], false) ∧
    andThen (commands (fun _ _ _ => false) [word "hop"] [])
      (commands (fun _ _ _ => false) [word "ls"]) =
      .ok ([.builtin [word "hop"], .group [word "ls"] false], false) ∧
    commands (fun _ _ _ => false) [word "ls", semi, word "hop"] [] =
      .ok ([.group [word "ls"] false, .group [word "hop"] false], false) ∧
    andThen (commands (fun _ _ _ => false) [word "ls"] [])
      (commands (fun _ _ _ => false) [word "hop"]) =
      .ok ([.group [word "ls"] false, .builtin [word "hop"]], false) :=
  ⟨rfl, rfl, rfl, rfl⟩

end UnixCShell
