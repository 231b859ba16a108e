import SystemsCourse.PipeComposition
import SystemsCourse.TargetWriter
import SystemsCourse.WellFormedPipeline

/-!
# Parsing undoes writing

Every well-formed pipeline can be written on a command line: each character of a
word in quotes of its own, words and redirections separated by blanks, commands by
pipes.  `Lexes` says which lexemes a piece of such a line consists of, up to their
positions; it is compositional at separators.  `parses_writeLine` is the round
trip.
-/
namespace SystemsCourse

/-! ## The writer -/

/-- A character in quotes. -/
def writeChar (c : Byte) : List Byte :=
  if c = singleQuote then [doubleQuote, c, doubleQuote] else [singleQuote, c, singleQuote]

/-- A word, one quoted character behind the other. -/
def writeBytes (s : List Byte) : List Byte :=
  if s = [] then [singleQuote, singleQuote] else s.flatMap writeChar

theorem noNul_writeBytes (s : CString) : (0 : Byte) ∉ writeBytes s.bytes := by
  unfold writeBytes
  split
  · decide
  · intro h
    obtain ⟨c, hc, h0⟩ := List.mem_flatMap.mp h
    have hc0 : (0 : Byte) ≠ c := fun he => s.noNul (he ▸ hc)
    unfold writeChar at h0
    split at h0 <;> simp [singleQuote, doubleQuote, hc0] at h0

/-- A string as a word. -/
def writeString (s : CString) : CString := ⟨writeBytes s.bytes, noNul_writeBytes s⟩

/-- The strings with a separator between them. -/
def joinWith (sep : CString) : List CString → CString
  | [] => CString.empty
  | [s] => s
  | s :: ss => s ++ sep ++ joinWith sep ss

/-- The strings between the words of a line. -/
def blank : CString := ⟨[ch ' '], by decide⟩
def less : CString := ⟨[ch '<'], by decide⟩
def greater : CString := ⟨[ch '>'], by decide⟩

/-- A redirection, if it is set. -/
def writeRedirection (op : CString) (target : Target) : CString :=
  match writeTarget target with
  | none => CString.empty
  | some t => blank ++ op ++ blank ++ writeString t

/-- A command. -/
def writeCommand (v : CommandValue) : CString :=
  joinWith blank (v.argv.map writeString) ++ writeRedirection less v.input ++
    writeRedirection greater v.output

/-- **A pipeline on a command line.** -/
def writeLine (vs : List CommandValue) : CString :=
  joinWith (blank ++ pipe ++ blank) (vs.map writeCommand)

/-! ## The lexemes of a piece of a line -/

/-- The quotes of `s` are balanced, and its lexemes are `ts`, wherever they stand. -/
def Lexes (s : List Byte) (ts : List Lexeme) : Prop :=
  quoteState s s.length = none ∧ ∃ xs, IsTokenization s xs ∧ List.Forall₂ Lexeme.Same ts xs

namespace Lexes
variable {a b : List Byte} {c : Byte} {ts us : List Lexeme}

theorem nil : Lexes [] [] := ⟨rfl, [], isTokenization_nil, .nil⟩

theorem append (ha : Lexes a ts) (hc : IsSeparator c) (hb : Lexes b us) :
    Lexes (a ++ c :: b) (ts ++ (separatorLexemes c 0 ++ us)) := by
  obtain ⟨hstate, xs, hxs, hts⟩ := ha
  obtain ⟨hstate', ys, hys, hus⟩ := hb
  refine ⟨?_, _, hxs.append hstate hc hys, List.rel_append hts (List.rel_append ?_ ?_)⟩
  · rw [show (a ++ c :: b).length = a.length + 1 + b.length by simp; omega,
      quoteState_append_right hstate hc, hstate']
  · unfold separatorLexemes
    cases operatorType c with
    | none => exact .nil
    | some type => exact .cons ⟨rfl, rfl⟩ .nil
  · exact List.forall₂_map_right_iff.mpr (hus.imp fun _ _ h => h)

theorem isSeparator_blank : IsSeparator (ch ' ') := Or.inl (by decide)

theorem append_blank (ha : Lexes a ts) (hb : Lexes b us) : Lexes (a ++ ch ' ' :: b) (ts ++ us) :=
  ha.append isSeparator_blank hb

theorem append_operator (ha : Lexes a ts) {type : TokenType} (hc : operatorType c = some type)
    (hb : Lexes b us) : Lexes (a ++ ch ' ' :: c :: ch ' ' :: b) (ts ++ ⟨type, none, 0⟩ :: us) := by
  have hsep : IsSeparator c := Or.inr (by rw [hc]; nofun)
  have h := ha.append_blank (nil.append hsep (nil.append_blank hb))
  rwa [separatorLexemes, hc] at h

end Lexes

/-! ### A written word -/

section WrittenWord
variable {s : List Byte} {a i quotePos : Nat} {text rest : List Byte} {c q : Byte}

/-- A quoted character joins the text of the word. -/
theorem WordScanned.quoted (h : WordScanned s a i none quotePos text) (hq : isQuote q) (hcq : c ≠ q)
    (hs : s.drop i = q :: c :: q :: rest) : WordScanned s a (i + 3) none i (text ++ [c]) := by
  have hget : ∀ k, s[i + k]? = (q :: c :: q :: rest)[k]? := fun k => by
    rw [← hs, List.getElem?_drop]
  exact ((h.openQuote (hget 0) hq).charInside (hget 1) hcq).closeQuote (hget 2)

theorem writeChar_eq (c : Byte) : ∃ q, isQuote q ∧ c ≠ q ∧ writeChar c = [q, c, q] := by
  unfold writeChar
  split
  · exact ⟨doubleQuote, by decide, by rename_i h; rw [h]; decide, rfl⟩
  · exact ⟨singleQuote, by decide, by assumption, rfl⟩

theorem WordScanned.written {w : List Byte} :
    ∀ {i quotePos : Nat} {text : List Byte}, WordScanned s a i none quotePos text →
      s.drop i = w.flatMap writeChar ++ rest →
      ∃ quotePos', WordScanned s a (i + (w.flatMap writeChar).length) none quotePos' (text ++ w) := by
  induction w with
  | nil =>
    intro i quotePos text h _
    exact ⟨quotePos, by simpa using h⟩
  | cons c w ih =>
    intro i quotePos text h hs
    obtain ⟨q, hq, hcq, hwrite⟩ := writeChar_eq c
    rw [List.flatMap_cons, hwrite] at hs ⊢
    have h' := h.quoted hq hcq (show _ = q :: c :: q :: (w.flatMap writeChar ++ rest) from hs)
    have hs' : s.drop (i + 3) = w.flatMap writeChar ++ rest := by
      rw [← List.drop_drop, hs]
      rfl
    obtain ⟨quotePos', h''⟩ := ih h' hs'
    have hlen : i + ([q, c, q] ++ w.flatMap writeChar).length = i + 3 + (w.flatMap writeChar).length := by
      simp only [List.length_append, List.length_cons, List.length_nil]
      omega
    rw [hlen, ← List.singleton_append, ← List.append_assoc]
    exact ⟨quotePos', h''⟩

end WrittenWord

/-- **A written string is one word, whose text is the string.** -/
theorem lexes_writeBytes (s : CString) : Lexes (writeBytes s.bytes) [⟨.tokWord, some s, 0⟩] := by
  have hstart := Scanned.zero (writeBytes s.bytes)
  obtain ⟨quotePos, hscan⟩ : ∃ quotePos, WordScanned (writeBytes s.bytes) 0
      (writeBytes s.bytes).length none quotePos s.bytes := by
    by_cases hs : s.bytes = []
    · -- two quotes with nothing between them
      rw [hs]
      exact ⟨0, ((WordScanned.zero (Scanned.zero _)).openQuote (c := singleQuote) rfl rfl).closeQuote rfl⟩
    · have hw : writeBytes s.bytes = s.bytes.flatMap writeChar := if_neg hs
      rw [hw]
      have hdrop : (s.bytes.flatMap writeChar).drop 0 = s.bytes.flatMap writeChar ++ [] := by simp
      have h := WordScanned.written (WordScanned.zero (Scanned.zero _)) hdrop
      simpa using h
  have hlen : 0 < (writeBytes s.bytes).length := by
    unfold writeBytes
    split
    · decide
    · rename_i hs
      cases hb : s.bytes with
      | nil => exact absurd hb hs
      | cons c w =>
        obtain ⟨q, -, -, hwrite⟩ := writeChar_eq c
        simp [hwrite]
  have hrun := hstart.isWord hlen (Nat.le_refl _) hscan.inside (Or.inl rfl)
  have hword : Scanned (writeBytes s.bytes) _ ([] ++ [⟨.tokWord, some s, 0⟩]) :=
    hstart.word hrun hscan.state hscan.text_eq
  exact ⟨hscan.state, _, hword.isTokenization, .cons ⟨rfl, rfl⟩ .nil⟩

/-! ### A written command -/

def wordLexeme (w : CString) : Lexeme := ⟨.tokWord, some w, 0⟩

def redirectionLexemes (op : TokenType) (target : Target) : List Lexeme :=
  match writeTarget target with
  | none => []
  | some t => [⟨op, none, 0⟩, wordLexeme t]

/-- The lexemes of a written command. -/
def commandLexemes (v : CommandValue) : List Lexeme :=
  v.argv.map wordLexeme ++ redirectionLexemes .tokIn v.input ++ redirectionLexemes .tokOut v.output

theorem lexes_words : ∀ {ws : List CString}, ws ≠ [] →
    Lexes (joinWith blank (ws.map writeString)).bytes (ws.map wordLexeme)
  | [w], _ => lexes_writeBytes w
  | w :: w' :: ws, _ => by
    have h := (lexes_writeBytes w).append_blank (lexes_words (List.cons_ne_nil w' ws))
    simpa [joinWith, blank, writeString, wordLexeme] using h

theorem Lexes.redirection {a : List Byte} {ts : List Lexeme} (ha : Lexes a ts) {op : CString} {c : Byte}
    (hop : op.bytes = [c]) {type : TokenType} (hc : operatorType c = some type) (target : Target) :
    Lexes (a ++ (writeRedirection op target).bytes) (ts ++ redirectionLexemes type target) := by
  unfold writeRedirection redirectionLexemes
  cases writeTarget target with
  | none => simpa [CString.empty] using ha
  | some t =>
    have h := ha.append_operator hc (lexes_writeBytes t)
    simpa [blank, hop, writeString, wordLexeme] using h

theorem lexes_writeCommand {v : CommandValue} (hargv : v.argv ≠ []) :
    Lexes (writeCommand v).bytes (commandLexemes v) :=
  ((lexes_words hargv).redirection (show less.bytes = _ from rfl) (by decide) v.input).redirection
    (show greater.bytes = _ from rfl) (by decide) v.output

theorem isItems_words (ws : List CString) : IsItems (ws.map wordLexeme) (ws.map .word) := by
  induction ws with
  | nil => exact .nil
  | cons w ws ih => exact .word ih

/-- The item that a written redirection is. -/
def redirectionItems (op : TokenType) (target : Target) : List Item :=
  (writeTarget target).toList.map (.redirection op)

@[simp] theorem bareWords_words (ws : List CString) : bareWords (ws.map .word) = ws := by
  induction ws with
  | nil => rfl
  | cons w ws ih => rw [List.map_cons, bareWords_word, ih]

@[simp] theorem targets_words (op : TokenType) (ws : List CString) : targets op (ws.map .word) = [] := by
  induction ws with
  | nil => rfl
  | cons w ws ih => rw [List.map_cons, targets_word, ih]

@[simp] theorem bareWords_redirectionItems (op : TokenType) (target : Target) :
    bareWords (redirectionItems op target) = [] := by
  unfold redirectionItems
  cases writeTarget target <;> rfl

@[simp] theorem targets_redirectionItems_self (op : TokenType) (target : Target) :
    targets op (redirectionItems op target) = (writeTarget target).toList := by
  unfold redirectionItems
  cases writeTarget target with
  | none => rfl
  | some t => exact targets_redirection_self op t []

theorem targets_redirectionItems_ne {op op' : TokenType} (h : op' ≠ op) (target : Target) :
    targets op (redirectionItems op' target) = [] := by
  unfold redirectionItems
  cases writeTarget target with
  | none => rfl
  | some t => exact targets_redirection_ne h t []

theorem isItems_redirection {op : TokenType} (hop : op.Redirects) (target : Target) :
    IsItems (redirectionLexemes op target) (redirectionItems op target) := by
  unfold redirectionLexemes redirectionItems
  cases writeTarget target with
  | none => exact .nil
  | some t => exact .redirection hop .nil

theorem decoding_writeTarget {target : Target} (h : target.WellFormed) :
    Decoding (writeTarget target).toList target := by
  cases hs : writeTarget target with
  | none =>
    cases target with
    | none => exact Or.inl ⟨rfl, rfl⟩
    | file path => cases hs
    | tcp host port => cases hs
  | some s => exact Or.inr ⟨s, rfl, decodes_iff.mpr (decodeTarget_writeTarget h hs)⟩

/-- The items of a written command. -/
def commandItems (v : CommandValue) : List Item :=
  v.argv.map .word ++ redirectionItems .tokIn v.input ++ redirectionItems .tokOut v.output

theorem isItems_commandLexemes (v : CommandValue) : IsItems (commandLexemes v) (commandItems v) :=
  ((isItems_words v.argv).append (isItems_redirection (Or.inl rfl) v.input)).append
    (isItems_redirection (Or.inr rfl) v.output)

/-- **A written command describes the command.** -/
theorem segmentMeans_commandLexemes {v : CommandValue} (h : v.WellFormed) :
    SegmentMeans (commandLexemes v) v := by
  refine ⟨commandItems v, isItems_commandLexemes v, ⟨?_, ?_, ?_⟩, h.argv⟩
  · simp [commandItems]
  · simpa [commandItems, targets_redirectionItems_ne] using decoding_writeTarget h.input
  · simpa [commandItems, targets_redirectionItems_ne] using decoding_writeTarget h.output

/-! ### A written line -/

/-- The lexemes of a written line. -/
def lineLexemes : List CommandValue → List Lexeme
  | [] => []
  | [v] => commandLexemes v
  | v :: vs => commandLexemes v ++ ⟨.tokPipe, none, 0⟩ :: lineLexemes vs

theorem lexes_writeLine : ∀ {vs : List CommandValue}, (∀ v ∈ vs, v.argv ≠ []) →
    Lexes (writeLine vs).bytes (lineLexemes vs)
  | [], _ => Lexes.nil
  | [v], h => lexes_writeCommand (h v List.mem_cons_self)
  | v :: v' :: vs, h => by
    have hrest := lexes_writeLine fun v hv => h v (List.mem_cons_of_mem _ hv)
    have hline := (lexes_writeCommand (h v List.mem_cons_self)).append_operator
      (show operatorType (ch '|') = some .tokPipe by decide) hrest
    simpa [writeLine, joinWith, blank, pipe, lineLexemes] using hline

/-- A pipe is no part of an item. -/
theorem IsItems.ne_tokPipe {seg : List Lexeme} {items : List Item} (h : IsItems seg items) :
    ∀ x ∈ seg, decide (x.type = .tokPipe) = false := by
  induction h with
  | nil => exact fun _ h => absurd h List.not_mem_nil
  | word tail ih => exact List.forall_mem_cons.mpr ⟨rfl, ih⟩
  | redirection redirects tail ih =>
    exact List.forall_mem_cons.mpr ⟨decide_eq_false redirects.ne_tokPipe,
      List.forall_mem_cons.mpr ⟨rfl, ih⟩⟩

theorem segments_lineLexemes {vs : List CommandValue} (h : vs ≠ []) :
    segments (lineLexemes vs) = vs.map commandLexemes := by
  induction vs with
  | nil => exact absurd rfl h
  | cons v vs ih =>
    by_cases hvs : vs = []
    · subst hvs
      exact List.splitOnP_eq_singleton (isItems_commandLexemes v).ne_tokPipe
    · rw [lineLexemes, segments, List.splitOnP_append_cons_of_forall_mem
        (isItems_commandLexemes v).ne_tokPipe _ (by simp), List.map_cons, ← ih hvs]
      · rfl
      · exact hvs

/-- **Every well-formed pipeline can be written on a command line, and parsing undoes
writing.** -/
theorem parses_writeLine (vs : List CommandValue) (h : ∀ v ∈ vs, v.WellFormed) :
    Parses (writeLine vs) vs := by
  obtain ⟨hstate, xs, hxs, hsame⟩ := lexes_writeLine fun v hv => (h v hv).argv
  refine parses_iff.mpr (lineMeans_ok_iff.mpr ⟨hstate, xs, hxs, ?_⟩)
  by_cases hvs : vs = []
  · -- no commands: the line is empty, and so is its list of lexemes
    subst hvs
    cases hsame
    exact .nil
  have hsegs : List.Forall₂ SegmentMeans (segments (lineLexemes vs)) vs := by
    rw [segments_lineLexemes hvs, List.forall₂_map_left_iff, List.forall₂_same]
    exact fun v hv => segmentMeans_commandLexemes (h v hv)
  exact (forall₂_segments_iff.mp (forall₂_segmentMeans_same (segments_same hsame) hsegs)).1

/-- `echo ' ' "'"` reads a file and writes to port 80 of `::1`; `cat` has no
redirection. -/
theorem parses_writeLine_echo :
    let echo : CommandValue :=
      ⟨[⟨[ch 'e', ch 'c', ch 'h', ch 'o'], by decide⟩, ⟨[ch ' '], by decide⟩, ⟨[singleQuote], by decide⟩],
        .file ⟨[ch 'f'], by decide⟩, .tcp ⟨[ch ':', ch ':', ch '1'], by decide⟩ 80⟩
    let cat : CommandValue := ⟨[⟨[ch 'c', ch 'a', ch 't'], by decide⟩], .none, .none⟩
    (echo.WellFormed ∧ cat.WellFormed) ∧ Parses (writeLine [echo, cat]) [echo, cat] := by
  intro echo cat
  have hecho : echo.WellFormed :=
    ⟨nofun, show ¬ tcpPrefix <+: [ch 'f'] by decide, by decide, Or.inl (by decide), by decide, by decide⟩
  have hcat : cat.WellFormed := ⟨nofun, trivial, trivial⟩
  exact ⟨⟨hecho, hcat⟩, parses_writeLine _ (by
    intro v hmem
    rcases hmem with _ | ⟨_, _ | ⟨_, h⟩⟩
    · exact hecho
    · exact hcat
    · cases h)⟩

end SystemsCourse
