import Reckon.Proofs.Token.Body
import Reckon.Proofs.Token.Extent

/-!
# Tiling — tokens cover a source text

The tokens of a source text stand in places of their own, one behind the other, and nothing but
white space is left between them.  Reading ends early only behind a mark that opens a text without an
end, and then the tokens in front of it cover the source text up to that mark.

* `Span`, `Token.Shows` — the characters that a token takes;
* `Token.IsTiling` — tokens and their places up to a position of the source text;
* `Token.Reaches` — the positions that the reader comes to, one step after another;
* `Token.isTiling_of_reaches` — what it has read by then;
* `Token.lex_tiles` — the reading of a source text as a whole.
-/

namespace Reckon

/-- The places from `start` up to `stop`, of which there is one at least. -/
structure Span where
  start : Nat
  stop : Nat
  start_lt_stop : start < stop

instance : Membership Nat Span where
  mem s place := s.start ≤ place ∧ place < s.stop

namespace Token

/-- A token shows the characters of a span: a text stands with its marks in the source text, and all
other tokens stand there as they are. -/
def Shows (source : List Char) (t : Token) (s : Span) : Prop :=
  t.position = s.start ∧
    match t.kind with
    | .number | .name | .symbol =>
      s.stop = s.start + t.text.length ∧ (source.drop s.start).take t.text.length = t.text.toList
    | .text =>
      ∃ mark written more, isQuote mark = true ∧ Body mark written t.text.toList ∧
        source.drop s.start = mark :: (written ++ mark :: more) ∧
          s.stop = s.start + (written.length + 2)
    | .other _ => False

/-- Tokens take spans of their own, in their order, and leave nothing but white space up to the
position `stop`. -/
structure IsTiling (source : List Char) (stop : Nat) (ts : List Token) (spans : List Span) :
    Prop where
  shows : List.Forall₂ (Shows source) ts spans
  apart : spans.Pairwise fun s s' => s.stop ≤ s'.start
  within : ∀ s ∈ spans, s.stop ≤ stop
  blank : ∀ place c, place < stop → source[place]? = some c → (∀ s ∈ spans, place ∉ s) →
    Text.isBlank c = true

/-- The reader comes to a position of the source text with some tokens behind it. -/
inductive Reaches (source : List Char) : Nat → List Token → Prop where
  | start : Reaches source 0 []
  | blank {p : Nat} {ts : List Token} {c : Char} {rest : List Char} : Reaches source p ts →
    source.drop p = c :: rest → Text.isBlank c = true → Reaches source (p + 1) ts
  | token {p : Nat} {ts : List Token} {c : Char} {rest : List Char} {t : Token} {width : Nat} :
    Reaches source p ts → source.drop p = c :: rest → Text.isBlank c = false →
      firstToken p c rest = .ok (t, width) → Reaches source (p + 1 + width) (ts ++ [t])

/-- A mark at the start of a token opens a text, and what follows holds no mark that could close
it. -/
structure OpensUnclosed (source : List Char) (p : Nat) (mark : Char) (rest : List Char) : Prop where
  reached : ∃ ts, Reaches source p ts
  opens : source.drop p = mark :: rest
  isQuote : isQuote mark = true
  unclosed : ¬∃ written content more, rest = written ++ mark :: more ∧ Body mark written content

/-- Behind a mark the source text ends with a backslash that begins an escape. -/
def EndsInEscape (mark : Char) (rest : List Char) : Prop :=
  mark ≠ '`' ∧ ∃ written content, rest = written ++ ['\\'] ∧ Body mark written content

variable {source : List Char} {p stop : Nat} {ts : List Token} {spans : List Span} {t : Token}
  {s : Span} {c mark : Char} {rest : List Char}

/-! ## One token -/

theorem shows_ofLength {kind : TokenKind} (hkind : kind = .number ∨ kind = .name ∨ kind = .symbol)
    {length : Nat} (hpos : 0 < length) (hlength : length ≤ (source.drop p).length) :
    Shows source (ofLength kind (source.drop p) length p) ⟨p, p + length, by omega⟩ := by
  have htext : (String.ofList ((source.drop p).take length)).length = length := by
    rw [String.length_ofList, List.length_take, Nat.min_eq_left hlength]
  refine ⟨rfl, ?_⟩
  rcases hkind with rfl | rfl | rfl <;>
    exact ⟨congrArg (p + ·) htext.symm, by simp only [ofLength, htext, String.toList_ofList]⟩

/-- A token that is read shows the characters that it takes. -/
theorem exists_span_of_firstToken (hdrop : source.drop p = c :: rest) {width : Nat}
    (h : firstToken p c rest = .ok (t, width)) :
    ∃ s : Span, Shows source t s ∧ s.start = p ∧ s.stop = p + 1 + width := by
  have hnumber := isExtent_numberLength.le_length (c :: rest)
  have hname := isExtent_nameLength.le_length (c :: rest)
  unfold firstToken at h
  dsimp only at h
  rw [← hdrop] at h hnumber hname
  split at h
  · rename_i hne
    cases h
    exact ⟨_, shows_ofLength (Or.inl rfl) (Nat.pos_of_ne_zero hne) hnumber, rfl, by dsimp only; omega⟩
  · split at h
    · rename_i hquote
      split at h
      · rename_i content length hread
        cases h
        obtain ⟨written, more, rfl, hbody, rfl⟩ := (readText_eq_closed_iff hquote).1 hread
        have hcontent : Body c written (String.ofList content).toList := by
          rwa [String.toList_ofList]
        exact ⟨⟨p, p + (written.length + 2), by omega⟩,
          ⟨rfl, c, written, more, hquote, hcontent, hdrop, rfl⟩, rfl, by dsimp only; omega⟩
      · cases h
      · cases h
    · split at h
      · rename_i hne
        cases h
        exact ⟨_, shows_ofLength (Or.inr (Or.inl rfl)) (Nat.pos_of_ne_zero hne) hname, rfl,
          by dsimp only; omega⟩
      · cases h
        have hlength : 1 ≤ (source.drop p).length := by
          rw [hdrop]
          exact Nat.succ_pos _
        have hsymbol : (⟨.symbol, c.toString, p⟩ : Token) = ofLength .symbol (source.drop p) 1 p := by
          rw [hdrop]
          rfl
        rw [hsymbol]
        exact ⟨_, shows_ofLength (Or.inr (Or.inr rfl)) Nat.one_pos hlength, rfl, rfl⟩

theorem Shows.stop_le (h : Shows source t s) : s.stop ≤ source.length := by
  have hstart := s.start_lt_stop
  have hplain : s.stop = s.start + t.text.length ∧
      (source.drop s.start).take t.text.length = t.text.toList → s.stop ≤ source.length := by
    rintro ⟨hstop, htext⟩
    have hlength := congrArg List.length htext
    rw [List.length_take, List.length_drop, String.length_toList] at hlength
    omega
  obtain ⟨-, hkind⟩ := h
  cases hk : t.kind <;> rw [hk] at hkind
  case number | name | symbol =>
    exact hplain hkind
  case text =>
    obtain ⟨mark, written, more, -, -, hdrop, hstop⟩ := hkind
    have hlength := congrArg List.length hdrop
    rw [List.length_drop, List.length_cons, List.length_append, List.length_cons] at hlength
    omega
  case other =>
    exact hkind.elim

/-! ## Tilings -/

theorem isTiling_nil : IsTiling source 0 [] [] where
  shows := .nil
  apart := .nil
  within := nofun
  blank _ _ hplace := absurd hplace (Nat.not_lt_zero _)

/-- White space goes on with a tiling. -/
theorem IsTiling.succ (h : IsTiling source stop ts spans) (hc : source[stop]? = some c)
    (hblank : Text.isBlank c = true) : IsTiling source (stop + 1) ts spans where
  shows := h.shows
  apart := h.apart
  within s hs := (h.within s hs).trans (Nat.le_succ stop)
  blank place c' hplace hc' houtside := by
    rcases Nat.lt_succ_iff_lt_or_eq.1 hplace with hlt | rfl
    · exact h.blank place c' hlt hc' houtside
    · rw [hc] at hc'
      obtain rfl := Option.some.inj hc'
      exact hblank

/-- So does a token that begins where the tiling ends. -/
theorem IsTiling.concat (h : IsTiling source s.start ts spans) (hs : Shows source t s) :
    IsTiling source s.stop (ts ++ [t]) (spans ++ [s]) where
  shows := List.rel_append h.shows (.cons hs .nil)
  apart := by
    refine List.pairwise_append.2 ⟨h.apart, List.pairwise_singleton _ _, ?_⟩
    intro s' hs' s'' hs''
    obtain rfl := List.mem_singleton.1 hs''
    exact h.within s' hs'
  within s' hs' := by
    rcases List.mem_append.1 hs' with hs' | hs'
    · exact (h.within s' hs').trans s.start_lt_stop.le
    · obtain rfl := List.mem_singleton.1 hs'
      exact le_rfl
  blank place c hplace hc houtside := by
    obtain ⟨hbefore, hlast⟩ := List.forall_mem_append.1 houtside
    have hnot : ¬(s.start ≤ place ∧ place < s.stop) := hlast s (List.mem_singleton_self s)
    exact h.blank place c (by omega) hc hbefore

theorem map_position_of_shows (h : List.Forall₂ (Shows source) ts spans) :
    ts.map Token.position = spans.map fun s => (s.start : Int) := by
  induction h with
  | nil =>
    rfl
  | cons hs _ ih =>
    rw [List.map_cons, List.map_cons, hs.1, ih]

/-- Tokens with places of their own stand in ascending order. -/
theorem IsTiling.pairwise_position (h : IsTiling source stop ts spans) :
    ts.Pairwise fun t u => t.position < u.position := by
  have hstarts : (spans.map fun s => (s.start : Int)).Pairwise (· < ·) := by
    refine List.pairwise_map.2 (h.apart.imp ?_)
    intro s s' hle
    exact Int.ofNat_lt.2 (s.start_lt_stop.trans_le hle)
  rw [← map_position_of_shows h.shows] at hstarts
  exact List.pairwise_map.1 hstarts

/-! ## The steps of the reader -/

theorem lt_length_of_drop (h : source.drop p = c :: rest) : p < source.length := by
  by_contra hge
  rw [List.drop_eq_nil_of_le (not_lt.1 hge)] at h
  cases h

theorem getElem?_of_drop (h : source.drop p = c :: rest) : source[p]? = some c := by
  rw [← List.head?_drop, h]
  rfl

/-- Behind the first character of a part of the source text. -/
theorem drop_succ_add (h : source.drop p = c :: rest) (width : Nat) :
    source.drop (p + 1 + width) = rest.drop width := by
  rw [← List.drop_drop, ← List.drop_drop, h, List.drop_one, List.tail_cons]

/-- Wherever the reader comes to, the tokens behind it cover the source text so far. -/
theorem exists_isTiling_of_reaches (h : Reaches source p ts) :
    ∃ spans, IsTiling source p ts spans := by
  -- a blank is left out, and a token has the span that follows
  induction h with
  | start =>
    exact ⟨[], isTiling_nil⟩
  | blank _ hdrop hblank ih =>
    obtain ⟨spans, htiling⟩ := ih
    exact ⟨spans, htiling.succ (getElem?_of_drop hdrop) hblank⟩
  | token _ hdrop _ hfirst ih =>
    obtain ⟨spans, htiling⟩ := ih
    obtain ⟨s, hs, rfl, hstop⟩ := exists_span_of_firstToken hdrop hfirst
    exact ⟨spans ++ [s], hstop ▸ htiling.concat hs⟩

/-- The reader does not leave the source text. -/
theorem le_length_of_reaches (h : Reaches source p ts) : p ≤ source.length := by
  cases h with
  | start =>
    exact Nat.zero_le _
  | blank _ hdrop _ =>
    exact lt_length_of_drop hdrop
  | token _ hdrop _ hfirst =>
    obtain ⟨s, hs, -, hstop⟩ := exists_span_of_firstToken hdrop hfirst
    exact hstop ▸ hs.stop_le

/-- The tokens of a source text are those behind a position that the reader comes to and those that
are read from there on. -/
theorem lexFrom_of_reaches (h : Reaches source p ts) :
    lexFrom 0 source =
      ⟨ts ++ (lexFrom p (source.drop p)).tokens, (lexFrom p (source.drop p)).failure⟩ := by
  induction h with
  | start =>
    rfl
  | @blank p ts c rest _ hdrop hblank ih =>
    have hnext := drop_succ_add hdrop 0
    rw [Nat.add_zero, List.drop_zero] at hnext
    rw [ih, hdrop, lexFrom, if_pos hblank, hnext]
  | @token p ts c rest t width _ hdrop hblank hfirst ih =>
    rw [ih, hdrop, lexFrom, if_neg (by simp [hblank]), hfirst, drop_succ_add hdrop,
      List.append_assoc]
    rfl

/-- The reader comes to the end of the source text, or to a place where it cannot read a token. -/
theorem exists_end_of_reaches (h : Reaches source p ts) :
    ∃ q us, Reaches source q us ∧ (source.drop q = [] ∨
      ∃ c rest e, source.drop q = c :: rest ∧ Text.isBlank c = false ∧
        firstToken q c rest = .error e) := by
  -- every step leaves less of the source text
  generalize hcs : source.drop p = cs
  fun_induction lexFrom p cs generalizing ts with
  | case1 p =>
    exact ⟨p, ts, h, Or.inl hcs⟩
  | case2 p c rest hblank ih =>
    have hnext := drop_succ_add hcs 0
    rw [Nat.add_zero, List.drop_zero] at hnext
    exact ih (h.blank hcs hblank) hnext
  | case3 p c rest hblank e hfirst =>
    exact ⟨p, ts, h, Or.inr ⟨c, rest, e, hcs, Bool.eq_false_of_not_eq_true hblank, hfirst⟩⟩
  | case4 p c rest hblank t width hfirst ih =>
    exact ih (h.token hcs (Bool.eq_false_of_not_eq_true hblank) hfirst) (drop_succ_add hcs width)

/-! ## Texts without an end -/

/-- A text without an end is an error, which stands at the mark or at the last backslash. -/
theorem firstToken_of_unclosed (hmark : isQuote mark = true)
    (hunclosed : ¬∃ written content more, rest = written ++ mark :: more ∧
      Body mark written content) (p : Nat) :
    (EndsInEscape mark rest →
      firstToken p mark rest = .error (.lexical .unterminatedEscape (p + rest.length))) ∧
    (¬EndsInEscape mark rest →
      firstToken p mark rest = .error (.lexical .unterminatedText p)) := by
  rw [firstToken_of_isQuote hmark]
  constructor
  · rintro ⟨hquote, written, content, rfl, hbody⟩
    have hread : readText mark (written ++ ['\\']) = .unclosed (some written.length) :=
      (readText_eq_unclosed_iff hmark).2 (Or.inr ⟨hquote, written, content, rfl, hbody, rfl⟩)
    rw [hread, List.length_append, Nat.add_comm written.length, ← Nat.add_assoc]
    rfl
  · intro hescape
    have hread : readText mark rest = .unclosed none := by
      cases hread : readText mark rest with
      | closed content length =>
        obtain ⟨written, more, rfl, hbody, -⟩ := (readText_eq_closed_iff hmark).1 hread
        exact absurd ⟨written, content, more, rfl, hbody⟩ hunclosed
      | unclosed escapeAt =>
        rcases (readText_eq_unclosed_iff hmark).1 hread with
          ⟨content, -, rfl⟩ | ⟨hquote, written, content, rfl, hbody, -⟩
        · rfl
        · exact absurd ⟨hquote, written, content, rfl, hbody⟩ hescape
    rw [hread]

/-- Where no token can be read, a text has no end. -/
theorem opensUnclosed_of_error (h : Reaches source p ts) (hdrop : source.drop p = c :: rest)
    {e : Error} (he : firstToken p c rest = .error e) : OpensUnclosed source p c rest := by
  obtain ⟨hquote, escapeAt, hread⟩ := exists_of_firstToken_error he
  refine ⟨⟨ts, h⟩, hdrop, hquote, ?_⟩
  rintro ⟨written, content, more, rfl, hbody⟩
  rw [(readText_eq_closed_iff hquote).2 ⟨written, more, rfl, hbody, rfl⟩] at hread
  cases hread

/-- Reading ends at a text without an end. -/
theorem lexFrom_of_opensUnclosed (h : OpensUnclosed source p mark rest) :
    ∃ ts, Reaches source p ts ∧
      (EndsInEscape mark rest → lexFrom 0 source =
        ⟨ts, some (.lexical .unterminatedEscape (source.length - 1))⟩) ∧
      (¬EndsInEscape mark rest → lexFrom 0 source =
        ⟨ts, some (.lexical .unterminatedText p)⟩) := by
  obtain ⟨⟨ts, hreached⟩, hdrop, hquote, hunclosed⟩ := h
  obtain ⟨hescape, htext⟩ := firstToken_of_unclosed hquote hunclosed p
  have hlast : p + rest.length = source.length - 1 := by
    have hlength := congrArg List.length hdrop
    rw [List.length_drop, List.length_cons] at hlength
    omega
  have hblank := (classes_of_isQuote hquote).1
  have hlex : ∀ e, firstToken p mark rest = .error e → lexFrom 0 source = ⟨ts, some e⟩ := by
    intro e he
    rw [lexFrom_of_reaches hreached, hdrop, lexFrom, if_neg (by simp [hblank]), he]
    exact congrArg (Reading.mk · _) (List.append_nil ts)
  rw [hlast] at hescape
  exact ⟨ts, hreached, fun h => hlex _ (hescape h), fun h => hlex _ (htext h)⟩

/-- The reader comes to the end of a source text, or to a text without an end. -/
theorem lexFrom_eq_or_opensUnclosed (source : List Char) :
    (∃ ts, Reaches source source.length ts ∧ lexFrom 0 source = ⟨ts, none⟩) ∨
      ∃ p mark rest, OpensUnclosed source p mark rest := by
  have hstart : Reaches source 0 [] := .start
  obtain ⟨p, ts, hreached, hend | ⟨c, rest, e, hdrop, -, he⟩⟩ := exists_end_of_reaches hstart
  · obtain rfl : p = source.length :=
      (le_length_of_reaches hreached).antisymm (List.drop_eq_nil_iff.1 hend)
    refine Or.inl ⟨ts, hreached, ?_⟩
    rw [lexFrom_of_reaches hreached, hend, lexFrom]
    exact congrArg (Reading.mk · _) (List.append_nil ts)
  · exact Or.inr ⟨p, c, rest, opensUnclosed_of_error hreached hdrop he⟩

/-- A source text whose reading fails has a text without an end, and the other way round. -/
theorem failure_ne_none_iff (source : List Char) :
    (lexFrom 0 source).failure ≠ none ↔ ∃ p mark rest, OpensUnclosed source p mark rest := by
  constructor
  · rcases lexFrom_eq_or_opensUnclosed source with ⟨ts, -, hlex⟩ | hunclosed
    · rw [hlex]
      exact fun h => absurd rfl h
    · exact fun _ => hunclosed
  · rintro ⟨p, mark, rest, hunclosed⟩
    obtain ⟨ts, -, hescape, htext⟩ := lexFrom_of_opensUnclosed hunclosed
    by_cases hends : EndsInEscape mark rest
    · rw [hescape hends]
      exact Option.some_ne_none _
    · rw [htext hends]
      exact Option.some_ne_none _

/-- The tokens that are read in front of a text without an end cover what stands there. -/
theorem exists_isTiling_of_opensUnclosed (h : OpensUnclosed source p mark rest) :
    ∃ spans, IsTiling source p (lexFrom 0 source).tokens spans := by
  obtain ⟨ts, hreached, hescape, htext⟩ := lexFrom_of_opensUnclosed h
  by_cases hends : EndsInEscape mark rest
  · rw [hescape hends]
    exact exists_isTiling_of_reaches hreached
  · rw [htext hends]
    exact exists_isTiling_of_reaches hreached

/-! ## Source texts -/

/-- A source text that one token takes as a whole. -/
theorem lex_of_firstToken {c : Char} {rest : List Char} {t : Token} (hblank : Text.isBlank c = false)
    (h : firstToken 0 c rest = .ok (t, rest.length)) :
    lex (String.ofList (c :: rest)) = ⟨[t], none⟩ := by
  rw [lex, String.toList_ofList, lexFrom, if_neg (by simp [hblank]), h]
  dsimp only
  rw [List.drop_length, lexFrom]
  rfl

/-- The tokens of a source text stand in ascending order and cover all of it but white space, unless
a mark opens a text without an end.  In this case, and in no other, reading fails: the tokens cover
the source text up to the mark, and the error stands at the mark, or at the last character if that is
the backslash of an escape. -/
theorem lex_tiles (source : String) :
    (lex source).tokens.Pairwise (fun t u => t.position < u.position) ∧
    ((lex source).failure = none →
      ∃ spans, IsTiling source.toList source.length (lex source).tokens spans) ∧
    ((lex source).failure ≠ none ↔ ∃ p mark rest, OpensUnclosed source.toList p mark rest) ∧
    ∀ p mark rest, OpensUnclosed source.toList p mark rest →
      (∃ spans, IsTiling source.toList p (lex source).tokens spans) ∧
      (EndsInEscape mark rest → (lex source).failure =
        some (.lexical .unterminatedEscape (source.length - 1))) ∧
      (¬EndsInEscape mark rest → (lex source).failure =
        some (.lexical .unterminatedText p)) := by
  have hwhole : (lex source).failure = none →
      ∃ spans, IsTiling source.toList source.length (lex source).tokens spans := by
    intro hnone
    rcases lexFrom_eq_or_opensUnclosed source.toList with ⟨ts, hreached, hlex⟩ | hunclosed
    · obtain ⟨spans, htiling⟩ := exists_isTiling_of_reaches hreached
      exact ⟨spans, by rwa [lex, hlex, ← String.length_toList]⟩
    · exact absurd hnone ((failure_ne_none_iff source.toList).2 hunclosed)
  refine ⟨?_, hwhole, failure_ne_none_iff source.toList, ?_⟩
  · by_cases hnone : (lex source).failure = none
    · obtain ⟨spans, htiling⟩ := hwhole hnone
      exact htiling.pairwise_position
    · obtain ⟨p, mark, rest, hunclosed⟩ := (failure_ne_none_iff source.toList).1 hnone
      obtain ⟨spans, htiling⟩ := exists_isTiling_of_opensUnclosed hunclosed
      exact htiling.pairwise_position
  · intro p mark rest hunclosed
    obtain ⟨ts, -, hescape, htext⟩ := lexFrom_of_opensUnclosed hunclosed
    refine ⟨exists_isTiling_of_opensUnclosed hunclosed, fun hends => ?_, fun hends => ?_⟩
    · exact congrArg Reading.failure (hescape hends)
    · exact congrArg Reading.failure (htext hends)

/-- The second mark of `'a' 'b\` opens a text that the backslash leaves open. -/
theorem lex_tiles_of_escape :
    OpensUnclosed "'a' 'b\\".toList 4 '\'' ['b', '\\'] ∧ EndsInEscape '\'' ['b', '\\'] ∧
      (lex "'a' 'b\\").failure = some (.lexical .unterminatedEscape 6) := by
  have hread : readText '\'' ['b', '\\'] = .unclosed (some 1) := by decide
  have hopens : "'a' 'b\\".toList.drop 0 = '\'' :: ['a', '\'', ' ', '\'', 'b', '\\'] := rfl
  have htoken : firstToken 0 '\'' ['a', '\'', ' ', '\'', 'b', '\\'] =
      .ok (⟨.text, "a", 0⟩, 2) := by decide +kernel
  have hfirst : Reaches "'a' 'b\\".toList 3 [⟨.text, "a", 0⟩] :=
    Reaches.start.token hopens (by decide) htoken
  have hspace : "'a' 'b\\".toList.drop 3 = ' ' :: ['\'', 'b', '\\'] := rfl
  have hunclosed : OpensUnclosed "'a' 'b\\".toList 4 '\'' ['b', '\\'] := by
    refine ⟨⟨_, hfirst.blank hspace (by decide)⟩, rfl, by decide, ?_⟩
    rintro ⟨written, content, more, hrest, hbody⟩
    rw [hrest, (readText_eq_closed_iff (by decide)).2 ⟨written, more, rfl, hbody, rfl⟩] at hread
    cases hread
  have hescape : EndsInEscape '\'' ['b', '\\'] :=
    ⟨by decide, ['b'], ['b'], rfl, .plain (by decide) (Or.inl (by decide)) .nil⟩
  obtain ⟨-, -, -, hfailure⟩ := lex_tiles "'a' 'b\\"
  exact ⟨hunclosed, hescape, (hfailure _ _ _ hunclosed).2.1 hescape⟩

end Token
end Reckon
