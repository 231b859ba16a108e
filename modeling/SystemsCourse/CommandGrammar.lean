import SystemsCourse.ParseRefinement

/-!
# The grammar of command lines

A line without lexemes is an empty pipeline.  Any other line is split at its pipes
into segments, and every segment must be a command: a sequence of items — bare
words, and redirections, which are an operator and a word — with a bare word, and
at most one redirection of each kind, to a target that `redirect_set` accepts.

`parseLexemes_eq_ok_iff` says that the recognition accepts exactly this grammar,
with the commands it describes; the claim about `pipeline_parse` itself follows by
`pipelineParse_spec`.
-/
namespace SystemsCourse
open Prog

/-! ## What `redirect_set` makes of a target -/

/-- On an empty `Redirect`, `redirect_set` accepts `target` and fills the
`Redirect` with `d`. -/
def Decodes (target : CString) (d : Target) : Prop :=
  ∀ (text : Ptr Byte) (e : Option ParseError) (pos : Nat) (m : Memory), text.string = some target →
    ∃ r m', redirectSet Redirect.zero text e pos Script.generous m = some ((.parseSuccess, r, e), m') ∧
      r.read = some d

theorem decodes_iff {target : CString} {d : Target} : Decodes target d ↔ decodeTarget target = .ok d := by
  have hrun (text : Ptr Byte) (e : Option ParseError) (pos : Nat) (m : Memory)
      (htext : text.string = some target) :=
    redirectSet_spec (σ := Script.generous) (show Redirect.zero.Holds .none from rfl) htext e pos
      (zero_add m.ledger.live).symm
  constructor
  · intro h
    have htext : Ptr.string (some ⟨0, target.cells⟩) = some target :=
      Ptr.string_of_prefix (List.prefix_refl _)
    obtain ⟨r, m', hr, hd⟩ := h _ none 0 Memory.empty htext
    obtain ⟨_, ⟨-, -, d', hd', hholds⟩ | ⟨hfail, -⟩⟩ := (hrun _ none 0 Memory.empty htext).of_run hr
    · rw [hholds.read] at hd
      rwa [← Option.some.inj hd]
    · cases hfail
  · intro hd text e pos m htext
    obtain ⟨⟨r, redirect, e'⟩, m', hr, _, ⟨rfl, rfl, d', hd', hholds⟩ | ⟨-, -, hσ | ⟨msg, hmsg, -⟩⟩⟩ :=
      wp_iff.mp (hrun text e pos m htext)
    · rw [setTarget_none, hd] at hd'
      cases hd'
      exact ⟨redirect, m', hr, hholds.read⟩
    · exact absurd hσ Script.not_refuses_generous
    · rw [setTarget_none, hd] at hmsg
      cases hmsg

/-! ## The grammar -/

/-- An item of a command. -/
inductive Item where
  | word (w : CString)
  | redirection (op : TokenType) (target : CString)

/-- The segment is the sequence of these items. -/
inductive IsItems : List Lexeme → List Item → Prop where
  | nil : IsItems [] []
  | word {w : CString} {pos : Nat} {rest : List Lexeme} {items : List Item}
      (tail : IsItems rest items) : IsItems (⟨.tokWord, some w, pos⟩ :: rest) (.word w :: items)
  | redirection {op : TokenType} {text : Option CString} {pos : Nat} {w : CString} {pos' : Nat}
      {rest : List Lexeme} {items : List Item} (redirects : op.Redirects) (tail : IsItems rest items) :
      IsItems (⟨op, text, pos⟩ :: ⟨.tokWord, some w, pos'⟩ :: rest) (.redirection op w :: items)

/-- The bare words. -/
def bareWords (items : List Item) : List CString :=
  items.filterMap fun
    | .word w => some w
    | .redirection _ _ => none

/-- The targets of one kind of redirection. -/
def targets (op : TokenType) (items : List Item) : List CString :=
  items.filterMap fun
    | .word _ => none
    | .redirection op' target => if op' = op then some target else none

@[simp] theorem bareWords_word (w : CString) (items : List Item) :
    bareWords (.word w :: items) = w :: bareWords items := rfl

@[simp] theorem bareWords_redirection (op : TokenType) (target : CString) (items : List Item) :
    bareWords (.redirection op target :: items) = bareWords items := rfl

@[simp] theorem targets_word (op : TokenType) (w : CString) (items : List Item) :
    targets op (.word w :: items) = targets op items := rfl

@[simp] theorem targets_redirection_self (op : TokenType) (target : CString) (items : List Item) :
    targets op (.redirection op target :: items) = target :: targets op items := by
  simp [targets]

theorem targets_redirection_ne {op op' : TokenType} (h : op' ≠ op) (target : CString)
    (items : List Item) : targets op (.redirection op' target :: items) = targets op items := by
  simp [targets, h]

@[simp] theorem bareWords_append (items items' : List Item) :
    bareWords (items ++ items') = bareWords items ++ bareWords items' := List.filterMap_append

@[simp] theorem targets_append (op : TokenType) (items items' : List Item) :
    targets op (items ++ items') = targets op items ++ targets op items' := List.filterMap_append

/-- The items make up a command. -/
structure IsCommand (items : List Item) : Prop where
  word : bareWords items ≠ []
  input : (targets .tokIn items).length ≤ 1
  output : (targets .tokOut items).length ≤ 1
  accepted : ∀ target ∈ targets .tokIn items ++ targets .tokOut items, ∃ d, Decodes target d

/-- What redirections to these targets set a `Redirect` to. -/
def Decoding (ts : List CString) (d : Target) : Prop :=
  (ts = [] ∧ d = .none) ∨ ∃ t, ts = [t] ∧ Decodes t d

/-- The command that the items describe. -/
structure Describes (items : List Item) (v : CommandValue) : Prop where
  argv : v.argv = bareWords items
  input : Decoding (targets .tokIn items) v.input
  output : Decoding (targets .tokOut items) v.output

/-- The segments of a token list. -/
def segments (xs : List Lexeme) : List (List Lexeme) := xs.splitOnP (·.type = .tokPipe)

/-- The segments that are commands: an empty token list has none. -/
def commandSegments (xs : List Lexeme) : List (List Lexeme) := if xs = [] then [] else segments xs

/-- **The grammar**: no lexeme at all, or commands in every segment. -/
def Grammatical (xs : List Lexeme) : Prop :=
  xs = [] ∨ ∀ seg ∈ segments xs, ∃ items, IsItems seg items ∧ IsCommand items

theorem grammatical_iff {xs : List Lexeme} :
    Grammatical xs ↔ ∀ seg ∈ commandSegments xs, ∃ items, IsItems seg items ∧ IsCommand items := by
  rw [Grammatical, commandSegments]
  by_cases h : xs = [] <;> simp [h]

/-- The segment describes the command `v`. -/
def SegmentMeans (seg : List Lexeme) (v : CommandValue) : Prop :=
  ∃ items, IsItems seg items ∧ Describes items v ∧ v.argv ≠ []

theorem isCommand_iff {items : List Item} :
    IsCommand items ↔ ∃ v, Describes items v ∧ v.argv ≠ [] := by
  constructor
  · intro h
    obtain ⟨hword, hin, hout, haccepted⟩ := h
    have side : ∀ ts : List CString, ts.length ≤ 1 → (∀ t ∈ ts, ∃ d, Decodes t d) →
        ∃ d, Decoding ts d := by
      intro ts hlen hts
      rcases ts with _ | ⟨t, _ | ⟨_, _⟩⟩
      · exact ⟨.none, Or.inl ⟨rfl, rfl⟩⟩
      · obtain ⟨d, hd⟩ := hts t List.mem_cons_self
        exact ⟨d, Or.inr ⟨t, rfl, hd⟩⟩
      · simp at hlen
    obtain ⟨din, hdin⟩ := side _ hin fun t ht => haccepted t (List.mem_append_left _ ht)
    obtain ⟨dout, hdout⟩ := side _ hout fun t ht => haccepted t (List.mem_append_right _ ht)
    exact ⟨⟨_, din, dout⟩, ⟨rfl, hdin, hdout⟩, hword⟩
  · intro h
    obtain ⟨v, ⟨hargv, hin, hout⟩, hne⟩ := h
    have length_le : ∀ {ts : List CString} {d : Target}, Decoding ts d → ts.length ≤ 1 := by
      rintro _ _ (⟨rfl, -⟩ | ⟨t, rfl, -⟩) <;> simp
    have accepted : ∀ {ts : List CString} {d : Target}, Decoding ts d →
        ∀ t ∈ ts, ∃ d, Decodes t d := by
      intro _ _ hdecoding t' ht'
      rcases hdecoding with ⟨rfl, -⟩ | ⟨t, rfl, hd⟩
      · cases ht'
      · rw [List.mem_singleton.mp ht']
        exact ⟨_, hd⟩
    refine ⟨hargv ▸ hne, length_le hin, length_le hout, fun t ht => ?_⟩
    exact (List.mem_append.mp ht).elim (accepted hin t) (accepted hout t)

/-! ## The recognition accepts the grammar -/

/-- The command `c` with one more item. -/
def CommandValue.add (c : CommandValue) : Item → Option CommandValue
  | .word w => some { c with argv := c.argv ++ [w] }
  | .redirection op target =>
      (setTarget (c.redirection op) target).toOption.map (c.setRedirection op)

theorem CommandValue.add_redirection_eq_some_iff {c c' : CommandValue} {op : TokenType}
    {target : CString} : c.add (.redirection op target) = some c' ↔
      ∃ d, setTarget (c.redirection op) target = .ok d ∧ c.setRedirection op d = c' := by
  rw [CommandValue.add]
  cases setTarget (c.redirection op) target <;> simp [Except.toOption]

/-- What redirections to these targets make of a redirection that was `old`. -/
def Becomes (old : Target) (ts : List CString) (d : Target) : Prop :=
  (ts = [] ∧ d = old) ∨ (old = .none ∧ ∃ t, ts = [t] ∧ decodeTarget t = .ok d)

theorem becomes_none_iff {ts : List CString} {d : Target} : Becomes .none ts d ↔ Decoding ts d := by
  simp only [Becomes, Decoding, decodes_iff, true_and]

theorem becomes_nil {old d : Target} : Becomes old [] d ↔ d = old := by
  simp [Becomes]

/-- Only the first redirection can be accepted: the decoding of a target is never
`none`. -/
theorem becomes_cons {old d : Target} {t : CString} {ts : List CString} :
    Becomes old (t :: ts) d ↔ ∃ d', setTarget old t = .ok d' ∧ Becomes d' ts d := by
  constructor
  · intro h
    rcases h with ⟨hnil, -⟩ | ⟨rfl, t', hts, hd⟩
    · cases hnil
    · cases hts
      exact ⟨d, (setTarget_none t).trans hd, becomes_nil.mpr rfl⟩
  · intro h
    obtain ⟨d', hd', h⟩ := h
    by_cases hold : old = .none
    · -- the first target has been decoded to something, so no second one can follow
      subst hold
      rw [setTarget_none] at hd'
      rcases h with ⟨rfl, rfl⟩ | ⟨rfl, -⟩
      · exact Or.inr ⟨rfl, t, rfl, hd'⟩
      · exact absurd hd' decodeTarget_ne_none
    · rw [setTarget, if_neg hold] at hd'
      cases hd'

theorem IsItems.append {seg seg' : List Lexeme} {items items' : List Item} (h : IsItems seg items)
    (h' : IsItems seg' items') : IsItems (seg ++ seg') (items ++ items') := by
  induction h with
  | nil => exact h'
  | word tail ih => exact .word ih
  | redirection redirects tail ih => exact .redirection redirects ih

/-- **Items one by one, and all at once.** -/
theorem IsItems.foldlM_add {seg : List Lexeme} {items : List Item} (h : IsItems seg items)
    {c v : CommandValue} : items.foldlM CommandValue.add c = some v ↔
      v.argv = c.argv ++ bareWords items ∧ Becomes c.input (targets .tokIn items) v.input ∧
      Becomes c.output (targets .tokOut items) v.output := by
  induction h generalizing c with
  | nil =>
    rw [List.foldlM_nil]
    simp only [bareWords, targets, List.filterMap_nil, List.append_nil, becomes_nil]
    constructor
    · intro hv
      cases hv
      exact ⟨rfl, rfl, rfl⟩
    · intro h
      obtain ⟨h1, h2, h3⟩ := h
      exact congrArg some (CommandValue.ext h1 h2 h3).symm
  | word tail ih =>
    rw [List.foldlM_cons]
    simp only [CommandValue.add, Option.bind_eq_bind, Option.bind_some, ih]
    simp
  | @redirection op _ _ w _ _ items redirects tail ih =>
    rw [List.foldlM_cons, Option.bind_eq_bind, Option.bind_eq_some_iff]
    simp only [CommandValue.add_redirection_eq_some_iff]
    -- an item redirects the input or the output, and leaves the other as it is
    rcases redirects with rfl | rfl
    · rw [targets_redirection_self, targets_redirection_ne (by nofun), becomes_cons]
      constructor
      · intro h
        obtain ⟨_, ⟨d, hd, rfl⟩, hv⟩ := h
        obtain ⟨hargv, hin, hout⟩ := ih.mp hv
        exact ⟨hargv, ⟨d, hd, hin⟩, hout⟩
      · intro h
        obtain ⟨hargv, ⟨d, hd, hin⟩, hout⟩ := h
        exact ⟨_, ⟨d, hd, rfl⟩, ih.mpr ⟨hargv, hin, hout⟩⟩
    · rw [targets_redirection_self, targets_redirection_ne (by nofun), becomes_cons]
      constructor
      · intro h
        obtain ⟨_, ⟨d, hd, rfl⟩, hv⟩ := h
        obtain ⟨hargv, hin, hout⟩ := ih.mp hv
        exact ⟨hargv, hin, d, hd, hout⟩
      · intro h
        obtain ⟨hargv, hin, d, hd, hout⟩ := h
        exact ⟨_, ⟨d, hd, rfl⟩, ih.mpr ⟨hargv, hin, hout⟩⟩

/-- The segment makes the command `c`, of which a part has been read, into `v`. -/
def Continues (c : CommandValue) (seg : List Lexeme) (v : CommandValue) : Prop :=
  ∃ items, IsItems seg items ∧ items.foldlM CommandValue.add c = some v ∧ v.argv ≠ []

theorem continues_zero_iff {seg : List Lexeme} {v : CommandValue} :
    Continues CommandValue.zero seg v ↔ SegmentMeans seg v := by
  refine exists_congr fun items => and_congr_right fun hitems => and_congr_left' ?_
  rw [hitems.foldlM_add]
  simp only [CommandValue.zero, List.nil_append, becomes_none_iff]
  exact ⟨fun ⟨h1, h2, h3⟩ => ⟨h1, h2, h3⟩, fun ⟨h1, h2, h3⟩ => ⟨h1, h2, h3⟩⟩

section Inversion
variable {c v : CommandValue} {x y : Lexeme} {seg : List Lexeme}

theorem continues_nil_iff : Continues c [] v ↔ v = c ∧ c.argv ≠ [] := by
  constructor
  · intro h
    obtain ⟨_, ⟨⟩, hv, hne⟩ := h
    cases hv
    exact ⟨rfl, hne⟩
  · intro h
    obtain ⟨rfl, hne⟩ := h
    exact ⟨[], .nil, rfl, hne⟩

theorem continues_word_iff {w : CString} {pos : Nat} :
    Continues c (⟨.tokWord, some w, pos⟩ :: seg) v ↔
      Continues { c with argv := c.argv ++ [w] } seg v := by
  constructor
  · intro h
    obtain ⟨_, hitems, hv, hne⟩ := h
    cases hitems with
    | word tail => exact ⟨_, tail, hv, hne⟩
    | redirection redirects tail => exact absurd redirects (by rintro (h | h) <;> cases h)
  · intro h
    obtain ⟨items, hitems, hv, hne⟩ := h
    exact ⟨_, .word hitems, hv, hne⟩

theorem continues_redirection_iff (hop : x.type.Redirects) {w : CString} {pos : Nat} :
    Continues c (x :: ⟨.tokWord, some w, pos⟩ :: seg) v ↔
      ∃ d, setTarget (c.redirection x.type) w = .ok d ∧
        Continues (c.setRedirection x.type d) seg v := by
  constructor
  · intro h
    obtain ⟨_, hitems, hv, hne⟩ := h
    cases hitems with
    | word tail => exact absurd hop (by rintro (h | h) <;> cases h)
    | redirection redirects tail =>
      rw [List.foldlM_cons, Option.bind_eq_bind, Option.bind_eq_some_iff] at hv
      obtain ⟨c', hc', hv⟩ := hv
      obtain ⟨d, hd, rfl⟩ := CommandValue.add_redirection_eq_some_iff.mp hc'
      exact ⟨d, hd, _, tail, hv, hne⟩
  · intro h
    obtain ⟨d, hd, items, hitems, hv, hne⟩ := h
    refine ⟨_, .redirection hop hitems, ?_, hne⟩
    rw [List.foldlM_cons, Option.bind_eq_bind, Option.bind_eq_some_iff]
    exact ⟨_, CommandValue.add_redirection_eq_some_iff.mpr ⟨d, hd, rfl⟩, hv⟩

/-- A redirection without a target continues no command. -/
theorem not_continues_redirection (hop : x.type.Redirects)
    (hseg : ∀ y rest, seg = y :: rest → y.type ≠ .tokWord) : ¬ Continues c (x :: seg) v := by
  intro h
  obtain ⟨_, hitems, -, -⟩ := h
  cases hitems with
  | word tail => exact absurd hop (by rintro (h | h) <;> cases h)
  | redirection redirects tail => exact hseg _ _ rfl rfl

end Inversion

/-- The first segment continues the command `c`, and each other describes a command
of its own. -/
def SegmentsContinue (c : CommandValue) : List (List Lexeme) → List CommandValue → Prop
  | seg :: segs, v :: ws => Continues c seg v ∧ List.Forall₂ SegmentMeans segs ws
  | _, _ => False

theorem segmentsContinue_zero_iff {segs : List (List Lexeme)} {ws : List CommandValue}
    (hsegs : segs ≠ []) :
    SegmentsContinue CommandValue.zero segs ws ↔ List.Forall₂ SegmentMeans segs ws := by
  cases segs with
  | nil => exact absurd rfl hsegs
  | cons seg segs =>
    cases ws with
    | nil => simp [SegmentsContinue]
    | cons v ws => rw [SegmentsContinue, continues_zero_iff, List.forall₂_cons]

/-- Nothing more comes to the command in hand. -/
theorem segmentsContinue_nil_iff {c : CommandValue} {segs : List (List Lexeme)}
    {ws : List CommandValue} : SegmentsContinue c ([] :: segs) ws ↔
      c.argv ≠ [] ∧ ∃ ws', ws = c :: ws' ∧ List.Forall₂ SegmentMeans segs ws' := by
  cases ws with
  | nil => exact ⟨False.elim, fun ⟨_, _, h, _⟩ => nomatch h⟩
  | cons v ws =>
    rw [SegmentsContinue, continues_nil_iff]
    constructor
    · intro h
      obtain ⟨⟨rfl, hargv⟩, hws⟩ := h
      exact ⟨hargv, ws, rfl, hws⟩
    · intro h
      obtain ⟨hargv, _, heq, hws⟩ := h
      cases heq
      exact ⟨⟨rfl, hargv⟩, hws⟩

theorem segmentsContinue_modifyHead {c c' : CommandValue} {f : List Lexeme → List Lexeme}
    (h : ∀ seg v, Continues c (f seg) v ↔ Continues c' seg v) {segs : List (List Lexeme)}
    {ws : List CommandValue} :
    SegmentsContinue c (segs.modifyHead f) ws ↔ SegmentsContinue c' segs ws := by
  cases segs with
  | nil => rfl
  | cons seg segs =>
    cases ws with
    | nil => rfl
    | cons v ws => exact and_congr_left' (h seg v)

theorem not_segmentsContinue_modifyHead {c : CommandValue} {f : List Lexeme → List Lexeme}
    {segs : List (List Lexeme)} (h : ∀ seg rest, segs = seg :: rest → ∀ v, ¬ Continues c (f seg) v)
    {ws : List CommandValue} : ¬ SegmentsContinue c (segs.modifyHead f) ws := by
  cases segs with
  | nil => exact id
  | cons seg segs =>
    cases ws with
    | nil => exact id
    | cons v ws => exact fun hc => h seg segs rfl v hc.1

section Segments
variable {x : Lexeme} {xs : List Lexeme}

theorem segments_nil : segments [] = [[]] := rfl

theorem segments_pipe (hx : x.type = .tokPipe) : segments (x :: xs) = [] :: segments xs := by
  rw [segments, List.splitOnP_cons_eq_if_modifyHead, if_pos (by simpa using hx)]
  rfl

theorem segments_item (hx : x.type ≠ .tokPipe) :
    segments (x :: xs) = (segments xs).modifyHead (x :: ·) := by
  rw [segments, List.splitOnP_cons_eq_if_modifyHead, if_neg (by simpa using hx)]
  rfl

theorem segments_ne_nil (xs : List Lexeme) : segments xs ≠ [] := List.splitOnP_ne_nil _ _

/-- The first segment starts with the first lexeme, if it is not empty. -/
theorem head?_of_segments {seg : List Lexeme} {segs : List (List Lexeme)}
    (h : segments xs = seg :: segs) {y : Lexeme} {rest : List Lexeme} (hseg : seg = y :: rest) :
    xs.head? = some y := by
  cases xs with
  | nil =>
    cases h
    cases hseg
  | cons x xs =>
    by_cases hx : x.type = .tokPipe
    · rw [segments_pipe hx] at h
      cases h
      cases hseg
    · rw [segments_item hx] at h
      cases hs : segments xs with
      | nil => exact absurd hs (segments_ne_nil xs)
      | cons seg' segs' =>
        rw [hs] at h
        cases h
        cases hseg
        rfl

end Segments

/-- A lexeme of a line, as opposed to the end of the line. -/
def Lexeme.Proper (x : Lexeme) : Prop :=
  x.type = .tokPipe ∨ x.type.Redirects ∨ ∃ w pos, x = ⟨.tokWord, some w, pos⟩

theorem Lexeme.Proper.of_isLexeme {s : List Byte} {x : Lexeme} (h : IsLexeme s x) : x.Proper := by
  cases h with
  | operator state char type_eq =>
    rcases eq_of_operatorType (by rw [type_eq]; nofun) with rfl | rfl | rfl <;> cases type_eq
    · exact Or.inl rfl
    · exact Or.inr (Or.inl (Or.inl rfl))
    · exact Or.inr (Or.inl (Or.inr rfl))
  | word run text_eq => exact Or.inr (Or.inr ⟨_, _, rfl⟩)

theorem Lexeme.Proper.ne_tokEnd {x : Lexeme} (h : x.Proper) : x.type ≠ .tokEnd := by
  rcases h with h | (h | h) | ⟨w, pos, rfl⟩
  · rw [h]; nofun
  · rw [h]; nofun
  · rw [h]; nofun
  · nofun

theorem Lexeme.Proper.eq_word {x : Lexeme} (h : x.Proper) (hword : x.type = .tokWord) :
    ∃ w pos, x = ⟨.tokWord, some w, pos⟩ := by
  rcases h with h | (h | h) | h
  · rw [hword] at h; cases h
  · rw [hword] at h; cases h
  · rw [hword] at h; cases h
  · exact h

section Redirections
variable {c : CommandValue} {x : Lexeme} {rest : List Lexeme} {ws : List CommandValue}

theorem TokenType.Redirects.ne_tokPipe {type : TokenType} (h : type.Redirects) : type ≠ .tokPipe := by
  rcases h with rfl | rfl <;> nofun

theorem segmentsContinue_redirection_iff (hop : x.type.Redirects) {w : CString} {pos : Nat} :
    SegmentsContinue c (segments (x :: ⟨.tokWord, some w, pos⟩ :: rest)) ws ↔
      ∃ d, setTarget (c.redirection x.type) w = .ok d ∧
        SegmentsContinue (c.setRedirection x.type d) (segments rest) ws := by
  rw [segments_item hop.ne_tokPipe, segments_item (by nofun), List.modifyHead_modifyHead]
  cases hset : setTarget (c.redirection x.type) w with
  | error msg =>
    refine ⟨fun h => absurd h (not_segmentsContinue_modifyHead ?_), fun ⟨_, hd, _⟩ => nomatch hd⟩
    intro seg segs _ v hv
    obtain ⟨d, hd, _⟩ := (continues_redirection_iff hop).mp hv
    rw [hset] at hd
    cases hd
  | ok d =>
    have hcontinues : ∀ seg v, Continues c (x :: ⟨.tokWord, some w, pos⟩ :: seg) v ↔
        Continues (c.setRedirection x.type d) seg v := fun seg v => by
      rw [continues_redirection_iff hop, hset]
      simp
    refine Iff.trans (segmentsContinue_modifyHead hcontinues) ?_
    simp

/-- Behind a redirection of a segment stands a word. -/
theorem exists_word_of_segmentsContinue (hop : x.type.Redirects) (hxs : ∀ y ∈ rest, y.Proper)
    (h : SegmentsContinue c (segments (x :: rest)) ws) :
    ∃ w pos rest', rest = ⟨.tokWord, some w, pos⟩ :: rest' := by
  rw [segments_item hop.ne_tokPipe] at h
  by_contra hnone
  refine not_segmentsContinue_modifyHead (fun seg segs hsegs v => ?_) h
  refine not_continues_redirection hop fun y rest' hseg hword => hnone ?_
  have hhead := head?_of_segments hsegs hseg
  cases rest with
  | nil => cases hhead
  | cons z rest =>
    obtain rfl : z = y := Option.some.inj hhead
    obtain ⟨w, pos, rfl⟩ := (hxs z List.mem_cons_self).eq_word hword
    exact ⟨w, pos, rest, rfl⟩

end Redirections

section Recognition
variable {last : Lexeme} {done : List CommandValue} {c : CommandValue} {vs : List CommandValue}

/-- Where a command must follow, a line goes on as inside a command without
words. -/
theorem parseFrom_true_eq_ok_iff {x : Lexeme} {rest : List Lexeme} (hx : x.type ≠ .tokEnd) :
    parseFrom true done CommandValue.zero (x :: rest) = .ok vs ↔
      parseFrom false done CommandValue.zero (x :: rest) = .ok vs := by
  by_cases hpipe : x.type = .tokPipe
  · rw [parseFrom_pipe hpipe, parseFrom_pipe hpipe, if_pos rfl, if_neg (by nofun),
      if_pos (show CommandValue.zero.argv = [] from rfl)]
    constructor <;> nofun
  · rw [parseFrom_start hpipe hx]

/-- The end of the line closes the command in hand. -/
theorem parseFrom_end_eq_ok_iff (hlast : last.type = .tokEnd) :
    parseFrom false done c [last] = .ok vs ↔ c.argv ≠ [] ∧ vs = done ++ [c] := by
  rw [parseFrom_end hlast, if_neg (by nofun)]
  by_cases hargv : c.argv = []
  · rw [if_pos hargv]
    exact ⟨nofun, fun h => absurd hargv h.1⟩
  · rw [if_neg hargv, and_iff_right hargv]
    exact ⟨fun h => by cases h; rfl, fun h => by rw [h]⟩

theorem parseFrom_pipe_eq_ok_iff (hlast : last.type = .tokEnd) {x : Lexeme} {rest : List Lexeme}
    (hx : x.type = .tokPipe) (hrest : ∀ y ∈ rest, y.Proper) :
    parseFrom false done c (x :: (rest ++ [last])) = .ok vs ↔
      c.argv ≠ [] ∧ parseFrom false (done ++ [c]) CommandValue.zero (rest ++ [last]) = .ok vs := by
  rw [parseFrom_pipe hx, if_neg (by nofun)]
  by_cases hargv : c.argv = []
  · rw [if_pos hargv]
    exact ⟨nofun, fun h => absurd hargv h.1⟩
  rw [if_neg hargv, and_iff_right hargv]
  cases rest with
  | nil =>
    rw [List.nil_append, List.head?_cons, Option.map_some, hlast, if_pos rfl, parseFrom_end hlast,
      if_neg (by nofun), if_pos (show CommandValue.zero.argv = [] from rfl)]
    constructor <;> nofun
  | cons y rest =>
    have hy := (hrest y List.mem_cons_self).ne_tokEnd
    rw [List.cons_append, List.head?_cons, Option.map_some, if_neg (by simpa using hy)]
    exact parseFrom_true_eq_ok_iff hy

/-- A redirection takes the lexeme behind it as well, which must be a word. -/
theorem parseFrom_redirection_eq_ok_iff (hlast : last.type = .tokEnd) {x : Lexeme} {xs : List Lexeme}
    (hop : x.type.Redirects) (hxs : ∀ y ∈ xs, y.Proper) :
    parseFrom false done c (x :: (xs ++ [last])) = .ok vs ↔
      ∃ w pos rest d, xs = ⟨.tokWord, some w, pos⟩ :: rest ∧
        setTarget (c.redirection x.type) w = .ok d ∧
        parseFrom false done (c.setRedirection x.type d) (rest ++ [last]) = .ok vs := by
  cases xs with
  | nil =>
    rw [List.nil_append, parseFrom_redirection hop, if_pos (by rw [hlast]; nofun)]
    exact ⟨nofun, fun ⟨_, _, _, _, h, _⟩ => nomatch h⟩
  | cons y rest =>
    rw [List.cons_append, parseFrom_redirection hop]
    by_cases hword : y.type = .tokWord
    · obtain ⟨w, pos, rfl⟩ := (hxs y List.mem_cons_self).eq_word hword
      rw [if_neg (not_not_intro hword)]
      constructor
      · intro h
        cases hset : setTarget (c.redirection x.type) w with
        | error msg =>
          simp only [Lexeme.word, Option.getD_some, hset] at h
          cases h
        | ok d =>
          simp only [Lexeme.word, Option.getD_some, hset] at h
          exact ⟨w, pos, rest, d, rfl, hset, h⟩
      · intro h
        obtain ⟨_, _, _, d, heq, hset, h⟩ := h
        cases heq
        simpa only [Lexeme.word, Option.getD_some, hset] using h
    · rw [if_pos hword]
      refine ⟨nofun, fun ⟨_, _, _, _, heq, _⟩ => absurd ?_ hword⟩
      cases heq
      rfl

/-- **The recognition of the rest of a line.**  The first segment continues the
command in hand; a redirection takes two lexemes at once. -/
theorem parseFrom_eq_ok_iff (hlast : last.type = .tokEnd) :
    ∀ {xs : List Lexeme} {done : List CommandValue} {c : CommandValue}, (∀ x ∈ xs, x.Proper) →
      (parseFrom false done c (xs ++ [last]) = .ok vs ↔
        ∃ ws, vs = done ++ ws ∧ SegmentsContinue c (segments xs) ws)
  | [], done, c, _ => by
    rw [List.nil_append, parseFrom_end_eq_ok_iff hlast]
    simp only [segments_nil, segmentsContinue_nil_iff, List.forall₂_nil_left_iff]
    constructor
    · intro h
      obtain ⟨hargv, rfl⟩ := h
      exact ⟨[c], rfl, hargv, [], rfl, rfl⟩
    · intro h
      obtain ⟨_, rfl, hargv, _, rfl, rfl⟩ := h
      exact ⟨hargv, rfl⟩
  | x :: xs, done, c, hproper => by
    have hxs : ∀ y ∈ xs, y.Proper := fun y hy => hproper y (List.mem_cons_of_mem _ hy)
    rw [List.cons_append]
    rcases hproper x List.mem_cons_self with hpipe | hop | ⟨w, pos, rfl⟩
    · -- a pipe closes the command in hand, and the next segment starts from nothing
      rw [parseFrom_pipe_eq_ok_iff hlast hpipe hxs, parseFrom_eq_ok_iff hlast hxs]
      simp only [segments_pipe hpipe, segmentsContinue_nil_iff,
        segmentsContinue_zero_iff (segments_ne_nil _)]
      constructor
      · intro h
        obtain ⟨hargv, ws, rfl, h⟩ := h
        exact ⟨c :: ws, (List.append_cons done c ws).symm, hargv, ws, rfl, h⟩
      · intro h
        obtain ⟨_, rfl, hargv, ws, rfl, h⟩ := h
        exact ⟨hargv, ws, List.append_cons done c ws, h⟩
    · rw [parseFrom_redirection_eq_ok_iff hlast hop hxs]
      constructor
      · intro h
        obtain ⟨w, pos, rest, d, rfl, hset, h⟩ := h
        have hrest : ∀ y ∈ rest, y.Proper := fun y hy => hxs y (List.mem_cons_of_mem _ hy)
        obtain ⟨ws, hvs, h⟩ := (parseFrom_eq_ok_iff hlast hrest).mp h
        exact ⟨ws, hvs, (segmentsContinue_redirection_iff hop).mpr ⟨d, hset, h⟩⟩
      · intro h
        obtain ⟨ws, hvs, h⟩ := h
        obtain ⟨w, pos, rest, rfl⟩ := exists_word_of_segmentsContinue hop hxs h
        have hrest : ∀ y ∈ rest, y.Proper := fun y hy => hxs y (List.mem_cons_of_mem _ hy)
        obtain ⟨d, hset, h⟩ := (segmentsContinue_redirection_iff hop).mp h
        exact ⟨w, pos, rest, d, rfl, hset, (parseFrom_eq_ok_iff hlast hrest).mpr ⟨ws, hvs, h⟩⟩
    · -- a word joins the command in hand
      rw [parseFrom_word rfl, parseFrom_eq_ok_iff hlast hxs, segments_item (by nofun)]
      simp only [segmentsContinue_modifyHead fun _ _ => continues_word_iff, Lexeme.word,
        Option.getD_some]
  termination_by xs => xs.length

/-- **The recognition accepts exactly the grammar**, with the commands that the
segments describe. -/
theorem parseLexemes_eq_ok_iff (hlast : last.type = .tokEnd) {xs : List Lexeme}
    (hxs : ∀ x ∈ xs, x.Proper) :
    parseLexemes (xs ++ [last]) = .ok vs ↔ List.Forall₂ SegmentMeans (commandSegments xs) vs := by
  rw [parseLexemes, commandSegments]
  cases xs with
  | nil =>
    rw [List.nil_append, parseFrom_end hlast, if_pos rfl, if_pos rfl, List.forall₂_nil_left_iff]
    exact ⟨fun h => by cases h; rfl, fun h => by rw [h]⟩
  | cons x rest =>
    rw [List.cons_append, parseFrom_true_eq_ok_iff (hxs x List.mem_cons_self).ne_tokEnd,
      ← List.cons_append, parseFrom_eq_ok_iff hlast hxs, if_neg (by nofun)]
    simp only [segmentsContinue_zero_iff (segments_ne_nil _)]
    exact ⟨fun ⟨ws, hvs, h⟩ => hvs ▸ h, fun h => ⟨vs, rfl, h⟩⟩

end Recognition

theorem exists_forall₂_segmentMeans_iff {segs : List (List Lexeme)} :
    (∃ vs, List.Forall₂ SegmentMeans segs vs) ↔
      ∀ seg ∈ segs, ∃ items, IsItems seg items ∧ IsCommand items := by
  have hone (seg : List Lexeme) :
      (∃ v, SegmentMeans seg v) ↔ ∃ items, IsItems seg items ∧ IsCommand items := by
    simp only [SegmentMeans, isCommand_iff]
    exact ⟨fun ⟨v, items, h, hv⟩ => ⟨items, h, v, hv⟩, fun ⟨items, h, v, hv⟩ => ⟨v, items, h, hv⟩⟩
  induction segs with
  | nil => simp
  | cons seg segs ih =>
    rw [List.forall_mem_cons]
    refine Iff.trans ?_ (and_congr (hone seg) ih)
    constructor
    · intro h
      obtain ⟨_, hv⟩ := h
      cases hv with
      | cons hv hvs => exact ⟨⟨_, hv⟩, _, hvs⟩
    · intro h
      obtain ⟨⟨v, hv⟩, vs, hvs⟩ := h
      exact ⟨v :: vs, .cons hv hvs⟩

/-- A line with balanced quotes is accepted exactly if its lexemes are in the
grammar. -/
theorem lineMeans_ok_iff_of_tokenization {s : CString} {xs : List Lexeme}
    (hstate : quoteState s.bytes s.length = none) (hxs : IsTokenization s.bytes xs)
    {vs : List CommandValue} :
    LineMeans s (.ok vs) ↔ List.Forall₂ SegmentMeans (commandSegments xs) vs := by
  have hmeans := LineMeans.tokens hstate hxs
  rw [← parseLexemes_eq_ok_iff (show Lexeme.type ⟨.tokEnd, none, s.length⟩ = .tokEnd from rfl)
    fun x hx => .of_isLexeme ((hxs.mem x).mp hx)]
  exact ⟨fun h => hmeans.unique h, fun h => h ▸ hmeans⟩

/-- **The lines that are accepted**, and what they mean. -/
theorem lineMeans_ok_iff {s : CString} {vs : List CommandValue} :
    LineMeans s (.ok vs) ↔ quoteState s.bytes s.length = none ∧
      ∃ xs, IsTokenization s.bytes xs ∧ List.Forall₂ SegmentMeans (commandSegments xs) vs := by
  constructor
  · intro h
    generalize hr : Except.ok vs = r at h
    cases h with
    | unterminated => cases hr
    | tokens balanced tokenization =>
      refine ⟨balanced, _, tokenization, ?_⟩
      rw [← lineMeans_ok_iff_of_tokenization balanced tokenization, hr]
      exact .tokens balanced tokenization
  · intro h
    obtain ⟨hstate, xs, hxs, h⟩ := h
    exact (lineMeans_ok_iff_of_tokenization hstate hxs).mpr h

/-! ## The pipeline that is built -/

/-- The command `c` of the result is the one that the segment describes. -/
def Command.DescribedBy (seg : List Lexeme) (c : Command) : Prop :=
  ∃ items v, IsItems seg items ∧ Describes items v ∧ c.argc = (bareWords items).length ∧
    c.read = some v

theorem Command.Built.argc_eq {c : Command} (h : c.Built) {v : CommandValue} (hv : c.read = some v) :
    c.argc = v.argv.length := by
  obtain ⟨cap, args, v', hc⟩ := h
  rw [hc.read] at hv
  cases hv
  rw [hc.count, (getElem_of_mapM hc.words).1]

/-- The commands of a pipeline are those that the segments describe. -/
theorem Pipeline.Built.describedBy {q : Pipeline} {cap : Nat} {vs : List CommandValue}
    (h : q.Built cap vs) {segs : List (List Lexeme)} (hsegs : List.Forall₂ SegmentMeans segs vs) :
    q.commandCount = segs.length ∧ ∃ cs, q.commands.items q.commandCount = some cs ∧
      List.Forall₂ (fun seg c => c.DescribedBy seg) segs cs := by
  obtain ⟨cs, hcs, hbuilt, hread⟩ := h
  have hlen := hsegs.length_eq
  have hlen' := (getElem_of_mapM hread).1
  refine ⟨by rw [hcs.count]; omega, cs, hcs.items, ?_⟩
  refine List.forall₂_iff_get.mpr ⟨by omega, fun i h₁ h₂ => ?_⟩
  obtain ⟨items, hitems, hdescribes, _⟩ := hsegs.get h₁ (by omega)
  have hci := (getElem_of_mapM hread).2 i h₂ (by omega)
  refine ⟨items, _, hitems, hdescribes, ?_, hci⟩
  rw [← hdescribes.argv]
  exact (hbuilt _ (List.getElem_mem h₂)).argc_eq hci

/-- **`pipeline_parse` accepts exactly its grammar**, and builds exactly the pipeline
that the grammar describes. -/
theorem pipelineParse_grammar (line : CString) (p : Pipeline) (e : Option ParseError) (m : Memory) :
    ∃ r t e₁ m₁ status q e₂ m₂,
      tokenize line TokenList.zero e Script.generous m = some ((r, t, e₁), m₁) ∧
      pipelineParse (some line) (some p) e Script.generous m = some ((status, some q, e₂), m₂) ∧
      (r = .parseSuccess → ∃ xs, t.read = some (xs ++ [⟨.tokEnd, none, line.length⟩]) ∧
        (status = .parseSuccess ↔ Grammatical xs) ∧
        (status = .parseSuccess → q.commandCount = (commandSegments xs).length ∧
          ∃ cs, q.commands.items q.commandCount = some cs ∧
            List.Forall₂ (fun seg c => c.DescribedBy seg) (commandSegments xs) cs)) := by
  obtain ⟨⟨r, t, e₁⟩, m₁, htok, -, hr⟩ := wp_iff.mp
    (tokenize_spec (σ := Script.generous) line e (m := m) rfl)
  obtain ⟨status, q, e₂, m₂, hrun, hstatus⟩ := pipelineParse_run line p e m
  refine ⟨r, t, e₁, m₁, status, q, e₂, m₂, htok, hrun, ?_⟩
  rintro rfl
  obtain ⟨-, hstate, -, toks, xs, ht, hxs, hread⟩ := hr.resolve_right fun h => nomatch h.1
  refine ⟨xs, by rw [ht.read, hread], ?_, ?_⟩
  · rw [grammatical_iff, ← exists_forall₂_segmentMeans_iff]
    rcases hstatus with ⟨rfl, cap, vs, -, hmeans⟩ | ⟨rfl, pos, msg, hmeans⟩
    · exact iff_of_true rfl ⟨vs, (lineMeans_ok_iff_of_tokenization hstate hxs).mp hmeans⟩
    · refine iff_of_false nofun ?_
      intro h
      obtain ⟨vs, hvs⟩ := h
      cases hmeans.unique ((lineMeans_ok_iff_of_tokenization hstate hxs).mpr hvs)
  · rintro rfl
    obtain ⟨-, cap, vs, hbuilt, hmeans⟩ := hstatus.resolve_right fun h => nomatch h.1
    exact hbuilt.describedBy ((lineMeans_ok_iff_of_tokenization hstate hxs).mp hmeans)

end SystemsCourse
