import UnixCShell.Lexer.Basic

/-!
# The syntax check

`validSyntax` (`parser.c`) walks once over the token list and looks at each token and its
successor; nothing is built. `Accepted` is the grammar it stands for: commands separated by `|`,
`&` and `;`, each a nonempty row of words and redirections. `validSyntax_iff` says that the local
check decides the grammar.
-/

namespace UnixCShell.Parser

/-! ## The check -/

def isRedirection (type : TokenType) : Bool := type == .opLt || type == .opGt || type == .opGtgt

def isSeparator (type : TokenType) : Bool := type == .opPipe || type == .opAmp || type == .opSemi

/-- `next == NULL || next->type == PIPE || AMP || SEMI`: nothing that could start a command. -/
def noCommandNext (next : Option Token) : Bool := next.all fun t => isSeparator t.type

/-- The loop of `valid_syntax`. -/
def validSyntaxLoop (prev : Option Token) : List Token → Bool
  | [] => true
  | curr :: rest =>
    if prev.isNone && curr.type != .word then false
    else if isRedirection curr.type && !(rest.head?.any fun t => t.type == .word) then false
    else if curr.type == .opPipe && noCommandNext rest.head? then false
    else if curr.type == .opSemi && noCommandNext rest.head? then false
    else if curr.type == .opAmp && (rest.head?.any fun t => isSeparator t.type) then false
    else validSyntaxLoop (some curr) rest

/-- `valid_syntax`. -/
def validSyntax (head : List Token) : Bool :=
  match head with
  | [] => true
  | _ => validSyntaxLoop none head

/-! ## The grammar -/

/-- A row of words and of redirection operators that each have a target. -/
inductive Items : List Token → Prop where
  | nil : Items []
  | word {w : Token} {ts : List Token} : w.type = .word → Items ts → Items (w :: ts)
  | redirection {op target : Token} {ts : List Token} : isRedirection op.type = true →
      target.type = .word → Items ts → Items (op :: target :: ts)

/-- What stands between two separators. -/
def Segment (ts : List Token) : Prop := ts ≠ [] ∧ Items ts

/-- The parts of a line between the tokens `|`, `&` and `;`. -/
def segments (ts : List Token) : List (List Token) := ts.splitOnP fun t => isSeparator t.type

/-- The last token is `&`. -/
def EndsInAmp (ts : List Token) : Prop := ts.getLast?.map Token.type = some .opAmp

/-- A line is empty, or it begins with a word and all its segments are nonempty rows of items; only
the segment behind a final `&` may be empty. -/
def Accepted (ts : List Token) : Prop :=
  ts = [] ∨
    ((ts.head?.map Token.type = some .word) ∧
      ∀ i seg, (segments ts)[i]? = some seg →
        Segment seg ∨ (seg = [] ∧ i + 1 = (segments ts).length ∧ EndsInAmp ts))

/-! ## Segments and items, one token at a time -/

theorem segments_separator {t : Token} {ts : List Token} (h : isSeparator t.type = true) :
    segments (t :: ts) = [] :: segments ts := by
  simp [segments, List.splitOnP_cons_eq_if_modifyHead, h]

theorem segments_other {t : Token} {ts : List Token} (h : isSeparator t.type = false) :
    segments (t :: ts) = (segments ts).modifyHead (t :: ·) := by
  simp [segments, List.splitOnP_cons_eq_if_modifyHead, h]

theorem exists_segments (ts : List Token) : ∃ seg segs, segments ts = seg :: segs :=
  List.exists_cons_of_ne_nil (List.splitOnP_ne_nil _ ts)

theorem items_word {w : Token} {ts : List Token} (h : w.type = .word) :
    Items (w :: ts) ↔ Items ts := by
  constructor
  · intro hi
    cases hi with
    | word _ hts => exact hts
    | redirection hop _ _ => simp [h, isRedirection] at hop
  · exact .word h

theorem items_redirection {op : Token} {ts : List Token} (h : isRedirection op.type = true) :
    Items (op :: ts) ↔ (ts.head?.any fun t => t.type == .word) = true ∧ Items ts := by
  constructor
  · intro hi
    cases hi with
    | word hw _ => simp [hw, isRedirection] at h
    | redirection _ htarget hts => exact ⟨by simp [htarget], .word htarget hts⟩
  · rintro ⟨hhead, hi⟩
    cases ts with
    | nil => simp at hhead
    | cons w ts =>
      have hw : w.type = .word := by simpa using hhead
      exact .redirection h hw ((items_word hw).mp hi)

/-- The last of `segs` may be empty when `final` holds; all others are segments. -/
def SegmentsOk (final : Prop) : List (List Token) → Prop
  | [] => True
  | [seg] => Segment seg ∨ (seg = [] ∧ final)
  | seg :: segs => Segment seg ∧ SegmentsOk final segs

theorem segmentsOk_iff {final : Prop} (segs : List (List Token)) :
    SegmentsOk final segs ↔ ∀ i seg, segs[i]? = some seg →
      Segment seg ∨ (seg = [] ∧ i + 1 = segs.length ∧ final) := by
  induction segs with
  | nil => simp [SegmentsOk]
  | cons seg segs ih =>
    cases segs with
    | nil =>
      simp only [SegmentsOk, List.length_singleton]
      constructor
      · intro h i seg' hi
        cases i with
        | zero => cases hi; simpa using h
        | succ i => simp at hi
      · intro h
        simpa using h 0 seg rfl
    | cons seg' segs =>
      simp only [SegmentsOk]
      rw [ih]
      constructor
      · rintro ⟨hseg, h⟩ i s hi
        cases i with
        | zero => cases hi; exact .inl hseg
        | succ i => simpa using h i s (by simpa using hi)
      · intro h
        refine ⟨?_, fun i s hi => ?_⟩
        · simpa using h 0 seg rfl
        · simpa using h (i + 1) s (by simpa using hi)

theorem endsInAmp_cons {t : Token} {ts : List Token} (h : ts ≠ []) :
    EndsInAmp (t :: ts) ↔ EndsInAmp ts := by
  obtain ⟨u, us, rfl⟩ := List.exists_cons_of_ne_nil h
  simp [EndsInAmp, List.getLast?_cons]

/-- The first segment is empty only in front of a separator, and then it is not the last one. -/
theorem segments_head_nil {t : Token} {ts seg : List Token} {segs : List (List Token)}
    (h : segments (t :: ts) = seg :: segs) :
    (seg = [] ↔ isSeparator t.type = true) ∧ (seg = [] → segs ≠ []) := by
  obtain ⟨seg', segs', h'⟩ := exists_segments ts
  cases hs : isSeparator t.type with
  | true =>
    rw [segments_separator hs, h'] at h
    cases h
    simp
  | false =>
    rw [segments_other hs, h'] at h
    cases h
    simp

/-- A word can be read at the front of a line exactly if it can be read at the front of the first
segment. -/
theorem segments_head_word {ts seg : List Token} {segs : List (List Token)}
    (h : segments ts = seg :: segs) :
    (seg.head?.any fun t => t.type == .word) = (ts.head?.any fun t => t.type == .word) := by
  cases ts with
  | nil =>
    cases h
    rfl
  | cons t ts =>
    obtain ⟨seg', segs', h'⟩ := exists_segments ts
    cases hs : isSeparator t.type with
    | true =>
      rw [segments_separator hs, h'] at h
      cases h
      cases htype : t.type <;> simp_all [isSeparator]
    | false =>
      rw [segments_other hs, h'] at h
      cases h
      rfl

/-- Behind a separator there must be a command, except behind a final `&`. -/
theorem segmentsOk_behind {sep : Token} {ts seg : List Token} {segs : List (List Token)}
    (h : segments ts = seg :: segs) :
    SegmentsOk (EndsInAmp (sep :: ts)) (seg :: segs) ↔
      (if ts = [] then sep.type = .opAmp
       else (ts.head?.all fun t => isSeparator t.type) = false ∧ Items seg ∧
         SegmentsOk (EndsInAmp ts) segs) := by
  cases ts with
  | nil =>
    cases h
    simp [SegmentsOk, Segment, EndsInAmp]
  | cons t ts =>
    obtain ⟨hnil, hnext⟩ := segments_head_nil h
    rw [if_neg (by simp), endsInAmp_cons (by simp)]
    have hhead : ((t :: ts).head?.all fun t => isSeparator t.type) = isSeparator t.type := by simp
    rw [hhead, ← Bool.not_eq_true, ← hnil]
    cases segs with
    | nil =>
      have hne : seg ≠ [] := fun hseg => hnext hseg rfl
      simp [SegmentsOk, Segment, hne]
    | cons seg' segs => simp [SegmentsOk, Segment, and_assoc]

/-! ## The local check decides the grammar -/

/-- What the loop demands of the tokens that are left, once a command has begun: items up to the
next separator, then whole segments. The scanner state is the position only, because all checks of
the loop behind the first token look at `curr` and `curr->next`. -/
theorem validSyntaxLoop_iff (p : Token) (ts : List Token) :
    validSyntaxLoop (some p) ts = true ↔
      ∃ seg segs, segments ts = seg :: segs ∧ Items seg ∧ SegmentsOk (EndsInAmp ts) segs := by
  induction ts generalizing p with
  | nil =>
    simp only [validSyntaxLoop, true_iff]
    exact ⟨[], [], rfl, .nil, trivial⟩
  | cons t ts ih =>
    obtain ⟨seg, segs, hsegs⟩ := exists_segments ts
    have other : isSeparator t.type = false →
        ((∃ seg segs, segments (t :: ts) = seg :: segs ∧ Items seg ∧
          SegmentsOk (EndsInAmp (t :: ts)) segs) ↔
        Items (t :: seg) ∧ SegmentsOk (EndsInAmp ts) segs) := by
      intro hs
      rw [segments_other hs, hsegs]
      by_cases hts : ts = []
      · subst hts
        cases hsegs
        simp [SegmentsOk]
      · rw [endsInAmp_cons hts]
        simp
    have separator : isSeparator t.type = true →
        ((∃ seg segs, segments (t :: ts) = seg :: segs ∧ Items seg ∧
          SegmentsOk (EndsInAmp (t :: ts)) segs) ↔
        SegmentsOk (EndsInAmp (t :: ts)) (seg :: segs)) := by
      intro hs
      rw [segments_separator hs, hsegs]
      simp [Items.nil]
    have rest : validSyntaxLoop (some t) ts = true ↔
        Items seg ∧ SegmentsOk (EndsInAmp ts) segs := by
      rw [ih t, hsegs]
      simp
    cases htype : t.type with
    | word =>
      rw [other (by simp [htype, isSeparator]), items_word htype, ← rest]
      simp [validSyntaxLoop, htype, isRedirection]
    | opLt | opGt | opGtgt =>
      have hredir : isRedirection t.type = true := by simp [htype, isRedirection]
      rw [other (by simp [htype, isSeparator]), items_redirection hredir, and_assoc, ← rest,
        segments_head_word hsegs]
      cases hword : ts.head?.any fun t => t.type == .word with
      | true => simp [validSyntaxLoop, htype, hword]
      | false => simp [validSyntaxLoop, htype, isRedirection, hword]
    | opPipe | opSemi =>
      rw [separator (by simp [htype, isSeparator]), segmentsOk_behind hsegs, ← rest]
      cases ts with
      | nil => simp [validSyntaxLoop, htype, isRedirection, noCommandNext]
      | cons u us => simp [validSyntaxLoop, htype, isRedirection, noCommandNext]
    | opAmp =>
      rw [separator (by simp [htype, isSeparator]), segmentsOk_behind hsegs, ← rest]
      cases ts with
      | nil => simp [validSyntaxLoop, htype, isRedirection]
      | cons u us => simp [validSyntaxLoop, htype, isRedirection]

/-- **Parser exactness**: `valid_syntax` accepts exactly the lines of the grammar. -/
theorem validSyntax_iff (ts : List Token) : validSyntax ts = true ↔ Accepted ts := by
  cases ts with
  | nil => simp [validSyntax, Accepted]
  | cons t ts =>
    by_cases hword : t.type = .word
    · obtain ⟨seg, segs, hsegs⟩ := exists_segments ts
      have hsep : isSeparator t.type = false := by simp [hword, isSeparator]
      have hloop : validSyntax (t :: ts) = validSyntaxLoop (some t) ts := by
        simp [validSyntax, validSyntaxLoop, hword, isRedirection]
      -- the word opens a segment, so the rest of that segment need not be nonempty
      have hfirst : Accepted (t :: ts) ↔
          SegmentsOk (EndsInAmp (t :: ts)) ((t :: seg) :: segs) := by
        simp only [Accepted, segmentsOk_iff, segments_other hsep, hsegs]
        simp [hword]
      rw [hloop, validSyntaxLoop_iff, hfirst, hsegs]
      by_cases hts : ts = []
      · subst hts
        cases hsegs
        simp [SegmentsOk, Segment, items_word hword]
      · rw [endsInAmp_cons hts]
        cases segs <;> simp [SegmentsOk, Segment, items_word hword]
    · simp [validSyntax, validSyntaxLoop, Accepted, hword]

end UnixCShell.Parser
