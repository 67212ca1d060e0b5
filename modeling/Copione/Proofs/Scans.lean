import Copione.Proofs.ScanRuns
/-!
# Whole scans

A scan reads the lexemes of a text one after another. Over a source that may refuse, it reads
some of them and stops.
-/
namespace Copione

namespace Lexeme

theorem leave_startToken {l : Lexeme} {c : Char} {u : Cursor} (htoken : u.token = [c])
    (hbegins : l.Begins c u.rest) :
    (l.leave u).startToken =
      ⟨[], u.rest.drop (l.text.length - 1), u.tokenOffset + utf8Length l.text⟩ := by
  have hforward : (l.leave u).startToken = (u.forward (l.text.length - 1)).startToken := by
    unfold leave
    split
    · next hcomment =>
      have hlength := hbegins.comment_length hcomment
      rw [Cursor.released_startToken, Cursor.forward_forward]
      congr 2
      omega
    · rfl
  rw [hforward, Cursor.startToken, Cursor.forward_token, htoken, List.singleton_append,
    hbegins.cons_take]
  rfl

theorem all_nil : all [] = [] := by rw [all]

theorem all_cons_of_error {c : Char} {rest : List Char} {p : Place} {e : CompileError}
    (h : (first c rest).error? p = some e) : all (c :: rest) = [first c rest] := by
  rw [all]
  cases hmeaning : (first c rest).meaning with
  | fault f => rfl
  | blank | newline | comment | token => simp [error?, hmeaning] at h

theorem all_cons {c : Char} {rest : List Char} {p : Place} (h : (first c rest).error? p = none) :
    all (c :: rest) = first c rest :: all (rest.drop ((first c rest).text.length - 1)) := by
  rw [all]
  cases hmeaning : (first c rest).meaning with
  | fault f => simp [error?, hmeaning] at h
  | blank | newline | comment | token => rfl

theorem eq_first_of_mem_all {text : List Char} {l : Lexeme} (h : l ∈ all text) :
    ∃ c rest, l = first c rest := by
  fun_induction all text with
  | case1 => cases h
  | case2 c rest first => exact ⟨c, rest, List.mem_singleton.mp h⟩
  | case3 c rest first _ ih =>
    rcases List.mem_cons.mp h with rfl | h
    · exact ⟨c, rest, rfl⟩
    · exact ih h

theorem token?_of_error {p : Place} {l : Lexeme} {e : CompileError} (h : l.error? p = some e) :
    l.token? p = none := by
  cases hmeaning : l.meaning with
  | fault f => simp only [token?, hmeaning]
  | blank | newline | comment | token => simp [error?, hmeaning] at h

def Place.start : Place := ⟨0, 1⟩

/-- How the scan of a text ends, by its lexemes. -/
def transcript (text : List Char) : Except ScanFailure (List Token) :=
  let held := tokens .start (all text)
  match finish .start (all text) with
  | .ok p => .ok (held ++ [⟨.eof, "", none, ⟨p.offset, 0, p.line⟩⟩])
  | .error e => .error ⟨e, some held⟩

private theorem tokens_prefix {read ls : List Lexeme} (h : read <+: ls) (p : Place) :
    tokens p read <+: tokens p ls := by
  induction read generalizing ls p with
  | nil => exact List.nil_prefix
  | cons l read ih =>
    obtain ⟨more, rfl⟩ := h
    exact (List.prefix_append_right_inj _).mpr (ih ⟨more, rfl⟩ _)

theorem mem_tokens {p : Place} {ls : List Lexeme} {t : Token} (h : t ∈ tokens p ls) :
    ∃ l ∈ ls, ∃ q, l.token? q = some t := by
  induction ls generalizing p with
  | nil => cases h
  | cons l ls ih =>
    rcases List.mem_append.mp h with h | h
    · exact ⟨l, List.mem_cons_self, p, Option.mem_toList.mp h⟩
    · obtain ⟨l', hl', q, hq⟩ := ih h
      exact ⟨l', List.mem_cons_of_mem l hl', q, hq⟩

theorem tokens_kind_ne_eof {p : Place} {text : List Char} {t : Token} (h : t ∈ tokens p (all text)) :
    t.kind ≠ .eof := by
  obtain ⟨l, hl, q, hq⟩ := mem_tokens h
  obtain ⟨c, rest, rfl⟩ := eq_first_of_mem_all hl
  unfold token? at hq
  split at hq
  · next hmeaning =>
    obtain rfl := Option.some.inj hq
    exact first_kind_ne_eof hmeaning
  · cases hq

end Lexeme

namespace Scanner

open Source (View)
open Lexeme (Place)

variable {σ : Type} [Source σ] {α : Type} {V : View σ} {room fuel : Nat} {s : Scanner σ}
  {u v : Scanner Cursor} {before : List Token} {p : Place} {ls : List Lexeme}

/-- How reading the lexemes `ls` from `p` on ends, if the tokens `before` were there already. -/
inductive Read (V : View σ) (room : Nat) (before : List Token) (p : Place) (ls : List Lexeme) :
    EStateM.Result CompileError (Scanner σ) Unit → Prop
  | done {t : Scanner σ} (htokens : t.tokens.toList = before ++ Lexeme.tokens p ls)
    (hfinish : Lexeme.finish p ls = .ok ⟨Source.tokenOffset t.source, t.line⟩) :
    Read V room before p ls (.ok () t)
  | fault {e : CompileError} {t : Scanner σ}
    (htokens : t.tokens.toList = before ++ Lexeme.tokens p ls) (hfinish : Lexeme.finish p ls = .error e) :
    Read V room before p ls (.error e t)
  | refused {t : Scanner σ} {cause : SourceError} {n : Nat} {read : List Lexeme} (hread : read <+: ls)
    (htokens : t.tokens.toList = before ++ Lexeme.tokens p read)
    (hrefuses : V.refuses cause n (V.cursor t.source))
    (hroom : (V.cursor t.source).taken.length + n < room) :
    Read V room before p ls (.error
      ((ScanFault.source cause).report (V.cursor t.source).tokenOffset 1 t.tokenLine) t)

private theorem Yields.read {x : Scan σ α} {f : α → Scan σ Unit} {a : α} (hs : shown V s = u)
    (hx : Yields V room fuel s x (.ok a v)) (hbefore : u.tokens.toList = before)
    (hf : ∀ {t}, At V fuel t v → Read V room before p ls (f a t)) :
    Read V room before p ls ((x >>= f) s) := by
  unfold Yields at hx
  cases hrun : x s with
  | ok b t =>
    rw [hrun] at hx
    obtain ⟨v', heq, hat⟩ := hx
    obtain ⟨rfl, rfl⟩ := EStateM.Result.ok.inj heq
    rw [Run.bind_of_ok hrun]
    exact hf hat
  | error e t =>
    rw [hrun] at hx
    obtain ⟨cause, n, hrefuses, hroom, rfl, htokens, -⟩ := hx.2.resolve_left (by simp)
    rw [Run.bind_of_error hrun]
    refine .refused (List.nil_prefix) ?_ hrefuses hroom
    rw [htokens, hs, hbefore, Lexeme.tokens, List.append_nil]

private theorem Read.cons {l : Lexeme} {r : EStateM.Result CompileError (Scanner σ) Unit}
    (herror : l.error? p = none)
    (h : Read V room (before ++ (l.token? p).toList) (p.after l) ls r) :
    Read V room before p (l :: ls) r := by
  have hfinish : Lexeme.finish p (l :: ls) = Lexeme.finish (p.after l) ls := by
    rw [Lexeme.finish, herror]
  cases h with
  | done htokens hdone =>
    exact .done (by rw [htokens, List.append_assoc, Lexeme.tokens]) (hfinish.trans hdone)
  | fault htokens hfault =>
    exact .fault (by rw [htokens, List.append_assoc, Lexeme.tokens]) (hfinish.trans hfault)
  | refused hread htokens hrefuses hroom =>
    exact .refused ((List.prefix_cons_inj _).mpr hread)
      (by rw [htokens, List.append_assoc, Lexeme.tokens]) hrefuses hroom

theorem scanToken_yields (hV : V.Lawful) {c : Char} {rest : List Char} {offset : Nat}
    (hs : At V (fuel + 1) s u) (hsource : u.source = ⟨[], c :: rest, offset⟩)
    (hroom : (Lexeme.first c rest).room ≤ room) :
    Yields V room fuel s (scanToken fuel)
      ((Lexeme.first c rest).outcome { u with source := ⟨[c], rest, offset⟩ }) := by
  have hpos := (Lexeme.first_begins c rest).room_pos
  have hrest : u.source.rest = c :: rest := by rw [hsource]
  have hadvance : Yields V room fuel s _ _ :=
    advance_yields hV hs hrest (by rw [hsource]; simp only [List.length_nil]; omega)
  have hforward : u.source.forward 1 = ⟨[c], rest, offset⟩ := by rw [hsource]; rfl
  rw [hforward] at hadvance
  refine .bind hs.shown_eq hadvance rfl rfl fun {t} ht => ?_
  exact dispatch_yields hV ht rfl hroom

private theorem Yields.read_error {x : Scan σ α} {f : α → Scan σ Unit} {e : CompileError}
    (hs : shown V s = u) (hx : Yields V room fuel s x (.error e v)) (hbefore : u.tokens.toList = before)
    (hv : v.tokens = u.tokens) (htokens : Lexeme.tokens p ls = [])
    (hfinish : Lexeme.finish p ls = .error e) : Read V room before p ls ((x >>= f) s) := by
  unfold Yields at hx
  cases hrun : x s with
  | ok b t =>
    rw [hrun] at hx
    obtain ⟨v', heq, -⟩ := hx
    cases heq
  | error e' t =>
    rw [hrun] at hx
    rw [Run.bind_of_error hrun]
    rcases hx.2 with heq | ⟨cause, n, hrefuses, hroom, rfl, hsame, -⟩
    · obtain ⟨rfl, rfl⟩ := EStateM.Result.error.inj heq
      refine .fault ?_ hfinish
      rw [htokens, List.append_nil, ← hbefore, ← hv]
      rfl
    · refine .refused List.nil_prefix ?_ hrefuses hroom
      rw [hsame, hs, hbefore, Lexeme.tokens, List.append_nil]

theorem toList_elim_push (tokens : Array Token) (token : Option Token) :
    (token.elim tokens tokens.push).toList = tokens.toList ++ token.toList := by
  cases token <;> simp

/-- A scan reads the lexemes of the text in front of it, one by one. -/
theorem scanUpTo_read (hV : V.Lawful) (hs : At V fuel s u) (hroom : 0 < room)
    (hrooms : ∀ l ∈ Lexeme.all u.source.rest, l.room ≤ room) :
    Read V room u.tokens.toList ⟨u.source.startToken.tokenOffset, u.line⟩
      (Lexeme.all u.source.rest) (scanUpTo fuel s) := by
  induction fuel generalizing s u with
  | zero => exact absurd hs.enough (Nat.not_lt_zero _)
  | succ fuel ih =>
    rw [scanUpTo]
    refine (startToken_yields hV hs).read hs.shown_eq rfl fun {t} ht => ?_
    have hatEnd : Yields V room (fuel + 1) t _ _ := isAtEnd_yields hV ht hroom
    simp only [Cursor.startToken_rest] at hatEnd
    cases hrest : u.source.rest with
    | nil =>
      rw [hrest] at hatEnd
      refine hatEnd.read ht.shown_eq rfl fun {t} ht => ?_
      refine .done ?_ ?_
      · rw [Lexeme.all_nil, Lexeme.tokens, List.append_nil, ht.tokens_eq]
      · rw [hV.tokenOffset ht.inv, ht.cursor_eq, ht.line_eq, Lexeme.all_nil, Lexeme.finish]
    | cons c rest =>
      rw [hrest] at hatEnd hrooms
      refine hatEnd.read ht.shown_eq rfl fun {t} ht => ?_
      have hbegin : At V (fuel + 1) { t with tokenLine := t.line }
          { u with source := u.source.startToken, tokenLine := u.line } := by
        refine ⟨?_, ht.inv, ht.enough⟩
        rw [shown, ht.cursor_eq, ht.tokens_eq, ht.line_eq]
      have hbegins := Lexeme.first_begins c rest
      have hsource : u.source.startToken = ⟨[], c :: rest, u.source.startToken.tokenOffset⟩ := by
        rw [← hrest]
        rfl
      have hpiece : Yields V room fuel _ _ _ := scanToken_yields hV hbegin hsource
        (hrooms _ (by rw [Lexeme.all]; split <;> simp))
      change Read V room _ _ _ ((scanToken fuel >>= fun _ => scanUpTo fuel) { t with tokenLine := t.line })
      cases herror : (Lexeme.first c rest).error? ⟨u.source.startToken.tokenOffset, u.line⟩ with
      | some e =>
        rw [Lexeme.outcome_of_error herror] at hpiece
        refine hpiece.read_error hbegin.shown_eq rfl rfl ?_ ?_
        · rw [Lexeme.all_cons_of_error herror, Lexeme.tokens, Lexeme.token?_of_error herror]
          rfl
        · rw [Lexeme.all_cons_of_error herror, Lexeme.finish, herror]
      | none =>
        rw [Lexeme.outcome_of_no_error herror] at hpiece
        refine hpiece.read hbegin.shown_eq rfl fun {t} ht => ?_
        have hleave := Lexeme.leave_startToken (u := ⟨[c], rest, u.source.startToken.tokenOffset⟩)
          rfl hbegins
        have hrest' := congrArg Cursor.rest hleave
        have hoffset := congrArg Cursor.tokenOffset hleave
        simp only [Cursor.startToken_rest] at hrest' hoffset
        rw [Lexeme.all_cons herror] at hrooms ⊢
        refine .cons herror ?_
        have h := ih ht (by simp only [hrest']; exact fun l hl => hrooms l (List.mem_cons_of_mem _ hl))
        simp only [hrest', hoffset, toList_elim_push] at h
        exact h

end Scanner

namespace Token

open Source (View)

/-- A scan ends as the lexemes of the text say, unless the source refuses. -/
theorem scanSource_eq_or_refused {σ : Type} [Source σ] {V : View σ} (hV : V.Lawful) {source : σ}
    {text : List Char} {room : Nat} (hinv : V.inv source) (htext : V.cursor source = Cursor.ofText text)
    (hroom : 0 < room) (hrooms : ∀ l ∈ Lexeme.all text, l.room ≤ room) :
    scanSource source = Lexeme.transcript text ∨
      ∃ cause n c line held, V.refuses cause n c ∧ c.taken.length + n < room ∧
        held <+: Lexeme.tokens .start (Lexeme.all text) ∧
        scanSource source =
          .error ⟨(ScanFault.source cause).report c.tokenOffset 1 line, some held⟩ := by
  have hs : Scanner.At V (Source.remaining source + 1) (Scanner.ofSource source)
      ⟨Cursor.ofText text, #[], 1, 1⟩ :=
    ⟨by rw [← htext]; rfl, hinv, Nat.lt_succ_self _⟩
  have hread : Scanner.Read V room [] .start (Lexeme.all text)
      (Scanner.scanUpTo (Source.remaining source + 1) (Scanner.ofSource source)) :=
    Scanner.scanUpTo_read hV hs hroom hrooms
  unfold scanSource Scanner.scanTokens Lexeme.transcript
  rw [Run.bind_of_ok Run.get_apply]
  simp only [show (Scanner.ofSource source).source = source from rfl]
  cases hrun : Scanner.scanUpTo (Source.remaining source + 1) (Scanner.ofSource source) with
  | ok _ t =>
    rw [hrun] at hread
    cases hread with
    | done htokens hfinish =>
      left
      rw [Run.bind_of_ok hrun, Run.bind_of_ok Run.get_apply, Run.bind_of_ok Run.set_apply]
      simp [htokens, hfinish]
  | error e t =>
    rw [hrun] at hread
    rw [Run.bind_of_error hrun]
    cases hread with
    | fault htokens hfinish =>
      left
      simp [htokens, hfinish]
    | refused hread htokens hrefuses hroom =>
      refine .inr ⟨_, _, _, _, _, hrefuses, hroom, ?_, rfl⟩
      rw [htokens, List.nil_append]
      exact Lexeme.tokens_prefix hread _

theorem exists_room (ls : List Lexeme) : ∃ room, 0 < room ∧ ∀ l ∈ ls, l.room ≤ room := by
  induction ls with
  | nil => exact ⟨1, Nat.zero_lt_one, by simp⟩
  | cons l ls ih =>
    obtain ⟨room, hpos, hle⟩ := ih
    refine ⟨max l.room room, by omega, ?_⟩
    intro l' hl'
    rcases List.mem_cons.mp hl' with rfl | hl'
    · omega
    · have := hle l' hl'
      omega

/-- The scan of a text in memory is told by its lexemes. -/
theorem scan_eq_transcript (text : String) : scan text = Lexeme.transcript text.toList := by
  obtain ⟨room, hpos, hrooms⟩ := exists_room (Lexeme.all text.toList)
  have hinv : View.ofCursor.inv (Cursor.ofText text.toList) := trivial
  rcases scanSource_eq_or_refused View.ofCursor_lawful hinv rfl hpos hrooms with
    h | ⟨_, _, _, _, _, hrefuses, _⟩
  · exact h
  · exact hrefuses.elim

/-- The tokens of a text end with the only one that is its end. -/
theorem eof_of_scan {text : String} {tokens : List Token} (h : scan text = .ok tokens) :
    ∃ ts e, tokens = ts ++ [e] ∧ e.kind = .eof ∧ ∀ t ∈ ts, t.kind ≠ .eof := by
  rw [scan_eq_transcript, Lexeme.transcript] at h
  split at h
  · obtain rfl := Except.ok.inj h
    exact ⟨_, _, rfl, rfl, fun t => Lexeme.tokens_kind_ne_eof⟩
  · cases h

end Token
end Copione
