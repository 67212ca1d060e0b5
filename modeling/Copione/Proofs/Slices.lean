import Copione.Proofs.ExactSpans
import Copione.Proofs.LongestMatch
import Copione.Proofs.Sessions
/-!
# Slices of programs

A stretch of a text from the beginning of one token to the end of another has the tokens between
them, and only those. So the slice that a statement covers is a program, and that statement is all
there is in it.
-/
namespace Copione

def Shift.upTo (s : Span) : Shift := ⟨s.offset, s.line - 1⟩

def Shift.across (text : List Char) : Shift := ⟨utf8Length text, text.count '\n'⟩

private theorem Shift.upTo_behind (before slice : List Char) : upTo
    (.behind before slice) = across before := by
  rw [upTo, across, Span.behind, Nat.add_sub_cancel_left]

private theorem Span.behind_append (before read slice : List Char) :
    Span.behind (before ++ read) slice = (Span.behind read slice).shift (.across before) := by
  simp only [behind, shift, Shift.across, Cursor.utf8Length_append, List.count_append, mk.injEq,
    true_and]
  omega

private theorem Longest.of_append {lexeme rest after : List Char} {found : LexemeClass}
    (h : Longest (lexeme ++ (rest ++ after)) lexeme found) : Longest (lexeme ++ rest) lexeme found where
  lexical := h.lexical
  begins := List.prefix_append _ _
  length_le hother hbegins :=
    h.length_le hother (List.append_assoc _ _ _ ▸ hbegins.trans (List.prefix_append _ after))

namespace Tokenizes

variable {before read rest : List Char} {tokens earlier later : List Token} {t : Token}

private theorem unshift (h : Tokenizes (before ++ read) rest tokens none) :
    ∃ moved, Tokenizes read rest moved none ∧ moved.map (Token.shift (.across before)) = tokens := by
  generalize hread : before ++ read = place, hending : (none : Option CompileError) = ending at h
  induction h generalizing read with
  | stuck => cases hending
  | eof =>
    subst hread
    exact ⟨_, .eof, by simp only [List.map_singleton, Token.shift, Span.behind_append]⟩
  | skip hlongest hfound _ ih =>
    subst hread hending
    obtain ⟨moved, hmoved, rfl⟩ := ih (List.append_assoc _ _ _).symm rfl
    exact ⟨moved, .skip hlongest hfound hmoved, rfl⟩
  | token hlongest hliteral _ ih =>
    subst hread hending
    obtain ⟨moved, hmoved, rfl⟩ := ih (List.append_assoc _ _ _).symm rfl
    exact ⟨_, .token hlongest hliteral hmoved,
      by simp only [List.map_cons, Token.shift, Span.behind_append]⟩

private theorem mem_of_split (h : earlier ++ t :: later = tokens) : t ∈ tokens :=
  h ▸ List.mem_append_right _ List.mem_cons_self

private theorem drop (h : Tokenizes read rest (earlier ++ t :: later) none) (ht : t.kind ≠ .eof) :
    ∃ gap own, rest = gap ++ own ∧ t.span = .behind (read ++ gap) t.lexeme.toList ∧
      Tokenizes (read ++ gap) own (t :: later) none := by
  generalize htokens : earlier ++ t :: later = tokens,
    hending : (none : Option CompileError) = ending at h
  induction h generalizing earlier with
  | stuck => cases hending
  | eof =>
    obtain rfl := List.mem_singleton.mp (mem_of_split htokens)
    exact absurd rfl ht
  | @skip read lexeme _ _ _ _ hlongest hfound _ ih =>
    subst hending
    obtain ⟨gap, own, rfl, hspan, hown⟩ := ih htokens rfl
    rw [List.append_assoc] at hspan hown
    exact ⟨lexeme ++ gap, own, (List.append_assoc _ _ _).symm, hspan, hown⟩
  | @token read lexeme rest _ _ _ _ hlongest hliteral h ih =>
    subst hending
    cases earlier with
    | nil =>
      obtain ⟨rfl, rfl⟩ := List.cons.inj htokens
      refine ⟨[], lexeme ++ rest, rfl, ?_, ?_⟩
      · rw [List.append_nil, String.toList_ofList]
      · rw [List.append_nil]
        exact .token hlongest hliteral h
    | cons first earlier =>
      obtain ⟨gap, own, rfl, hspan, hown⟩ := ih (List.cons.inj htokens).2 rfl
      rw [List.append_assoc] at hspan hown
      exact ⟨lexeme ++ gap, own, (List.append_assoc _ _ _).symm, hspan, hown⟩

private theorem take (h : Tokenizes read rest (earlier ++ t :: later) none) (ht : t.kind ≠ .eof) :
    ∃ own after, rest = own ++ after ∧ t.span.stop = utf8Length (read ++ own) ∧
      ∃ e, e.kind = .eof ∧ Tokenizes read own (earlier ++ [t, e]) none := by
  generalize htokens : earlier ++ t :: later = tokens,
    hending : (none : Option CompileError) = ending at h
  induction h generalizing earlier with
  | stuck => cases hending
  | eof =>
    obtain rfl := List.mem_singleton.mp (mem_of_split htokens)
    exact absurd rfl ht
  | @skip read lexeme _ _ _ _ hlongest hfound _ ih =>
    subst hending
    obtain ⟨own, after, rfl, hstop, e, he, hown⟩ := ih htokens rfl
    rw [List.append_assoc] at hstop
    exact ⟨lexeme ++ own, after, (List.append_assoc _ _ _).symm, hstop, e, he,
      .skip hlongest.of_append hfound hown⟩
  | @token read lexeme rest _ _ _ _ hlongest hliteral h ih =>
    subst hending
    cases earlier with
    | nil =>
      obtain ⟨rfl, rfl⟩ := List.cons.inj htokens
      refine ⟨lexeme ++ [], rest, by rw [List.append_nil], ?_, _, rfl, .token ?_ hliteral .eof⟩
      · rw [List.append_nil, Cursor.utf8Length_append]
        rfl
      · exact Longest.of_append hlongest
    | cons first earlier =>
      obtain ⟨rfl, hrest⟩ := List.cons.inj htokens
      obtain ⟨own, after, rfl, hstop, e, he, hown⟩ := ih hrest rfl
      rw [List.append_assoc] at hstop
      exact ⟨lexeme ++ own, after, (List.append_assoc _ _ _).symm, hstop, e, he,
        .token hlongest.of_append hliteral hown⟩

end Tokenizes

namespace Token

/-- What a run of tokens covers has those tokens, and no others. -/
theorem scan_slice {text : String} {earlier own later : List Token} {s : Span}
    (h : scan text = .ok (earlier ++ (own ++ later))) (hown : ∀ t ∈ own, t.kind ≠ .eof)
    (hs : s.Encloses own) :
    ∃ slice moved e, s.Covers text.toList slice ∧ scan (String.ofList slice) = .ok (moved ++ [e]) ∧
      e.kind = .eof ∧ moved.map (Token.shift (.upTo s)) = own := by
  obtain ⟨first, last, hfirst, hlast, hoffset, hstop, hline⟩ := hs
  obtain ⟨more, hmore⟩ := List.head?_eq_some_iff.mp hfirst
  obtain ⟨init, hinit⟩ := List.getLast?_eq_some_iff.mp hlast
  have htext := scan_ok_iff.mp h
  rw [hmore, List.cons_append] at htext
  obtain ⟨before, rest, hsplit, hspan, hrest⟩ := htext.drop (hown first (List.mem_of_head? hfirst))
  rw [← List.cons_append, ← hmore, hinit, List.append_assoc] at hrest
  obtain ⟨slice, after, rfl, hend, e, he, hslice⟩ := hrest.take (hown last (List.mem_of_getLast? hlast))
  rw [List.nil_append] at hspan hend hslice
  have hs : s = .behind before slice := by
    have hlen : s.offset + s.len = utf8Length before + utf8Length slice := by
      rw [← Cursor.utf8Length_append, ← hend]
      exact hstop
    rw [hspan] at hoffset hline
    obtain ⟨offset, len, line⟩ := s
    obtain rfl : offset = utf8Length before := hoffset
    obtain rfl : line = 1 + before.count '\n' := hline
    obtain rfl : len = utf8Length slice := Nat.add_left_cancel hlen
    rfl
  -- the slice where it stands in the text, and then as a text of its own
  rw [← List.append_nil before] at hslice
  obtain ⟨tokens, htokens, hshift⟩ := hslice.unshift
  obtain ⟨moved, ends, rfl, hmoved, hends⟩ :=
    List.map_eq_append_iff.mp (hshift.trans (List.append_assoc init [last] [e]).symm)
  obtain ⟨e', rfl, rfl⟩ := List.map_eq_singleton_iff.mp hends
  refine ⟨slice, moved, e', ⟨before, after, ?_, hs⟩, ?_, he, ?_⟩
  · rw [hsplit, List.append_assoc]
  · rw [scan_ok_iff, String.toList_ofList]
    exact htokens
  · rw [hs, Shift.upTo_behind, hmoved, hinit]

end Token

namespace Program

/-- A statement of a program is a program, in the slice of the text that it covers. -/
theorem Reads.slice {text : String} {program : List Stmt} (h : Reads text program) {s : Stmt}
    (hs : s ∈ program) : ∃ slice s', s.span.Covers text.toList slice ∧
      Reads (String.ofList slice) [s'] ∧ s'.shift (.upTo s.span) = s := by
  obtain ⟨ts, e, hscan, he, hts, -, hspelled, hwell⟩ := h.spelled
  obtain ⟨i, hat⟩ := Node.exists_at hs
  obtain ⟨earlier, own, later, rfl, -, hown⟩ := hat.spelled hspelled
  have hencloses : s.span.Encloses own := hown.encloses (Token.ordered_of_scan hscan).middle
  rw [List.append_assoc, List.append_assoc] at hscan
  obtain ⟨slice, moved, e', hcovers, hslice, he', hmoved⟩ :=
    Token.scan_slice hscan (fun t ht => hts t (by simp [ht])) hencloses
  have hwords : moved.map Token.word = Stmt.wordsOfAll [s] := by
    rw [← Token.map_word_shift, hmoved, hown.words, Stmt.wordsOfAll, Stmt.wordsOfAll, List.append_nil,
      Node.words]
  obtain ⟨found, hparse, hfound⟩ :=
    parse_of_words he' (List.forall_mem_singleton.mpr (hwell s hs)) hwords
  obtain ⟨s', rfl, herase⟩ := List.map_eq_singleton_iff.mp hfound
  have hreads : Reads (String.ofList slice) [s'] := ⟨_, hslice, hparse⟩
  refine ⟨slice, s', hcovers, hreads, ?_⟩
  -- moved to where the slice begins, what is found is spelled by the tokens of the statement
  obtain ⟨ts, _, hscan', -, -, -, hspelled', -⟩ := hreads.spelled
  obtain ⟨rfl, -⟩ := List.append_inj' (Except.ok.inj (hslice.symm.trans hscan')) rfl
  cases hspelled' with
  | cons h hnil =>
    cases hnil
    rw [List.append_nil] at hmoved
    exact Stmt.Spelled.unique hown h.shift hmoved.symm (by rw [Stmt.erase_shift, herase])

/-- Where the nodes of a program stand in the text that it was read from. -/
structure SpansExact (text : String) (tokens : List Token) (program : List Stmt) : Prop where
  /-- A node goes from the first to the last of the tokens that say it. -/
  encloses : ∀ i n, Node.At program i n →
    let own := (tokens.drop i).take n.words.length
    own.map Token.word = n.words ∧ n.span.Encloses own
  within : ∀ i n, Node.At program i n → ∀ child ∈ n.children, child.span.Within n.span
  ordered : ∀ i n, Node.At program i n → n.children.Pairwise fun a b => a.span.Before b.span
  statements_ordered : program.Pairwise fun a b => a.span.Before b.span
  /-- A statement is all that there is in the slice that it covers, with its spans as they are from
  the beginning of the slice on. -/
  slices : ∀ s ∈ program, ∃ slice s', s.span.Covers text.toList slice ∧
    Reads (String.ofList slice) [s'] ∧ s'.shift (.upTo s.span) = s

/-- The spans of every program that is read from a text are exact. -/
theorem spans_exact {text : String} {tokens : List Token} {program : List Stmt}
    (hscan : Token.scan text = .ok tokens) (hparse : parse tokens = .ok program) :
    SpansExact text tokens program := by
  obtain ⟨ts, e, rfl, he, hts⟩ := Token.eof_of_scan hscan
  obtain ⟨hspelled, -⟩ := parse_spelled hts he hparse
  have hordered := Token.ordered_of_scan hscan
  have hnode {i : Nat} {n : Node} (hat : Node.At program i n) :
      ∃ own, ((ts ++ [e]).drop i).take n.words.length = own ∧ n.Spelled own ∧ Token.Ordered own := by
    obtain ⟨before, own, after, rfl, rfl, hown⟩ := hat.spelled hspelled
    refine ⟨own, ?_, hown, hordered.middle⟩
    rw [← hown.words, List.length_map, List.append_assoc, List.drop_left, List.append_assoc,
      List.take_left]
  refine ⟨fun i n hat => ?_, fun i n hat => ?_, fun i n hat => ?_, ?_, fun s hs => ?_⟩
  · obtain ⟨own, rfl, hown, hordered⟩ := hnode hat
    exact ⟨hown.words, hown.encloses hordered⟩
  · obtain ⟨own, -, hown, hordered⟩ := hnode hat
    exact hown.children_within hordered
  · obtain ⟨own, -, hown, hordered⟩ := hnode hat
    exact hown.pieces.nodes_before hordered
  · have hpieces : Piece.SpelledAll ts (Piece.ofStmts program) := .of_stmts hspelled
    have hnodes := hpieces.nodes_before hordered
    rw [Piece.filterMap_node?_ofStmts, List.pairwise_map] at hnodes
    exact hnodes
  · exact Reads.slice ⟨_, hscan, hparse⟩ hs

/-- A comment, an assignment that goes over two lines, and a block on the second of them. -/
theorem spans_exact_two_lines :
    ∃ tokens program, Token.scan "-- è\nx.y = f(1,\n g)(2);  \x7b a = -b; \x7d" = .ok tokens ∧
      parse tokens = .ok program ∧
      program.map Stmt.span = [⟨6, 18, 2⟩, ⟨26, 11, 3⟩] ∧
      SpansExact "-- è\nx.y = f(1,\n g)(2);  \x7b a = -b; \x7d" tokens program := by
  have hread : ((Token.scan "-- è\nx.y = f(1,\n g)(2);  \x7b a = -b; \x7d").toOption.bind
      fun tokens => (parse tokens).toOption).map (List.map Stmt.span) =
        some [⟨6, 18, 2⟩, ⟨26, 11, 3⟩] := by
    decide +kernel
  generalize "-- è\nx.y = f(1,\n g)(2);  \x7b a = -b; \x7d" = text at hread ⊢
  cases hscan : Token.scan text with
  | error e => simp [hscan, Except.toOption] at hread
  | ok tokens =>
    cases hparse : parse tokens with
    | error e => simp [hscan, hparse, Except.toOption] at hread
    | ok program =>
      simp only [hscan, hparse, Except.toOption, Option.bind_some, Option.map_some,
        Option.some.injEq] at hread
      exact ⟨tokens, program, rfl, hparse, hread, spans_exact hscan hparse⟩

end Program
end Copione
