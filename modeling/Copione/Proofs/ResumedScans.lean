import Copione.Proofs.ErrorLines
import Copione.Proofs.Tiling
/-!
# Resumed scans

A scanner that failed can be asked again. It goes on behind the lexeme that it failed at, with the
tokens that it holds. So however many calls fail on the way, the tokens of a text are handed over all
at once, and none of them is lost or read twice.
-/
namespace Copione

/-- After `read` the text goes on with `rest`, which consists of the tokens, of blanks and comments,
and of lexemes that are faults. -/
inductive Divides : List Char → List Char → List Token → Prop
  | done {read : List Char} : Divides read [] []
  | gap {read gap rest : List Char} {ts : List Token} (hgap : Gap rest gap)
    (h : Divides (read ++ gap) rest ts) : Divides read (gap ++ rest) ts
  | fault {read lexeme rest : List Char} {ts : List Token} {fault : ScanFault}
    (hfault : Offends rest fault lexeme) (h : Divides (read ++ lexeme) rest ts) :
    Divides read (lexeme ++ rest) ts
  | token {read rest : List Char} {t : Token} {ts : List Token} (hkind : t.kind ≠ .eof)
    (hsome : t.lexeme ≠ "") (hspan : t.span = .behind read t.lexeme.toList)
    (h : Divides (read ++ t.lexeme.toList) rest ts) :
    Divides read (t.lexeme.toList ++ rest) (t :: ts)

namespace Divides

variable {read rest : List Char} {ts : List Token} {t : Token}

private theorem kind_ne_eof (h : Divides read rest ts) (ht : t ∈ ts) : t.kind ≠ .eof := by
  induction h with
  | done => cases ht
  | gap _ _ ih | fault _ _ ih => exact ih ht
  | token hkind _ _ _ ih =>
    rcases List.mem_cons.mp ht with rfl | ht
    · exact hkind
    · exact ih ht

private theorem covers (h : Divides read rest ts) (ht : t ∈ ts) :
    t.span.Covers (read ++ rest) t.lexeme.toList := by
  induction h with
  | done => cases ht
  | gap _ _ ih | fault _ _ ih => simpa only [List.append_assoc] using ih ht
  | @token read rest t' ts _ _ hspan _ ih =>
    rcases List.mem_cons.mp ht with rfl | ht
    · exact ⟨read, rest, by simp only [List.append_assoc], hspan⟩
    · simpa only [List.append_assoc] using ih ht

private theorem le_offset (h : Divides read rest ts) :
    ∀ s ∈ ts.map Token.span ++ [Span.behind (read ++ rest) []], utf8Length read ≤ s.offset := by
  have hshorter {read piece : List Char} {s : Span} (h : utf8Length (read ++ piece) ≤ s.offset) :
      utf8Length read ≤ s.offset := by
    rw [Cursor.utf8Length_append] at h
    omega
  induction h with
  | done => simp [Span.behind]
  | gap _ _ ih | fault _ _ ih =>
    simp only [← List.append_assoc]
    exact fun s hs => hshorter (ih s hs)
  | @token read rest t ts _ _ hspan _ ih =>
    simp only [List.map_cons, List.cons_append, List.mem_cons, forall_eq_or_imp, ← List.append_assoc]
    exact ⟨by simp [hspan, Span.behind], fun s hs => hshorter (ih s hs)⟩

private theorem ordered (h : Divides read rest ts) :
    (ts.map Token.span ++ [Span.behind (read ++ rest) []]).Pairwise fun a b =>
      a.offset < b.offset ∧ a.stop ≤ b.offset := by
  induction h with
  | done => simp
  | gap _ _ ih | fault _ _ ih => simpa only [List.append_assoc] using ih
  | @token read rest t ts _ hsome hspan h ih =>
    have hpos := Laid.utf8Length_pos hsome
    simp only [List.append_assoc] at ih
    simp only [List.map_cons, List.cons_append, List.pairwise_cons]
    refine ⟨fun s hs => ?_, ih⟩
    have hle := h.le_offset s (by simpa only [List.append_assoc] using hs)
    rw [Cursor.utf8Length_append] at hle
    simp only [hspan, Span.behind, Span.stop]
    omega

end Divides

namespace Lexeme

def division : List Char → List Lexeme
  | [] => []
  | c :: rest => first c rest :: division (rest.drop ((first c rest).text.length - 1))
termination_by text => text.length
decreasing_by
  simp only [List.length_drop, List.length_cons]
  omega

private theorem division_nil : division [] = [] := by rw [division]

private theorem division_cons (c : Char) (rest : List Char) :
    division (c :: rest) = first c rest :: division (rest.drop ((first c rest).text.length - 1)) := by
  rw [division]

private theorem lines_of_error {l : Lexeme} {p : Place} {e : CompileError} (h : l.error? p = some e) :
    l.lines = 0 := by
  cases hmeaning : l.meaning with
  | newline => simp [error?, hmeaning] at h
  | blank | comment | token | fault => simp [lines, hmeaning]

/-- What a text is divided into. -/
theorem divides_division (read rest : List Char) :
    Divides read rest (tokens (.behind read) (division rest)) := by
  fun_induction division rest generalizing read with
  | case1 => exact .done
  | case2 c rest ih =>
    have hfits := first_fits c rest
    have hrest := ih (read ++ (first c rest).text)
    rw [← Place.after_behind hfits] at hrest
    rw [tokens]
    generalize hafter : rest.drop ((first c rest).text.length - 1) = after at *
    have hsplit : (first c rest).text ++ after = c :: rest := hafter ▸ first_append_drop c rest
    rw [← hsplit]
    cases hmeaning : (first c rest).meaning with
    | blank | newline | comment =>
      have htoken : (first c rest).token? (.behind read) = none := by simp [token?, hmeaning]
      rw [htoken]
      exact .gap (hfits.gap htoken (by simp [error?, hmeaning])) hrest
    | fault f =>
      rw [token?_of_error (error?_behind hmeaning (first_text_ne_nil c rest) read)]
      unfold Fits at hfits
      rw [hmeaning] at hfits
      exact .fault hfits.1 hrest
    | token kind literal =>
      have hsome : String.ofList (first c rest).text ≠ "" := by
        intro hempty
        have hlist := congrArg String.toList hempty
        rw [String.toList_ofList] at hlist
        exact first_text_ne_nil c rest hlist
      let t : Token := ⟨kind, String.ofList (first c rest).text, literal, .behind read (first c rest).text⟩
      have hspan : t.span = .behind read t.lexeme.toList := by simp [t]
      have h := Divides.token (first_kind_ne_eof hmeaning) hsome hspan (by simpa [t] using hrest)
      rw [token?_behind hmeaning]
      simpa [t] using h

end Lexeme

namespace Scanner

open Source (View)
open Lexeme (Place)

variable {s t : Scanner Cursor} {read rest : List Char} {c : Char} {fuel room : Nat} {α : Type}

/-- Nothing is refused in memory. -/
private theorem eq_of_yields {x : Scan Cursor α} {outcome : EStateM.Result CompileError _ α}
    (h : Yields View.ofCursor room fuel s x outcome) : x s = outcome := by
  unfold Yields at h
  cases hrun : x s with
  | ok a t =>
    rw [hrun] at h
    obtain ⟨u, rfl, hat⟩ := h
    rw [← hat.shown_eq]
    rfl
  | error e t =>
    rw [hrun] at h
    rcases h.2 with hsame | ⟨_, _, hrefuses, _⟩
    · exact hsame.symm
    · exact hrefuses.elim

private theorem at_self (h : s.source.rest.length < fuel) : At View.ofCursor fuel s s :=
  ⟨rfl, trivial, h⟩

/-- A scan begins with the question whether the text is at its end. -/
private theorem scanUpTo_eq (s : Scanner Cursor) (fuel : Nat) :
    scanUpTo (fuel + 1) s =
      if s.source.rest.isEmpty then .ok () { s with source := s.source.startToken }
      else (scanToken fuel >>= fun _ => scanUpTo fuel)
        { s with source := s.source.startToken, tokenLine := s.line } := by
  have hstart : startToken s = .ok () { s with source := s.source.startToken } := rfl
  have hatEnd : ask Source.isAtEnd { s with source := s.source.startToken } =
      .ok s.source.rest.isEmpty { s with source := s.source.startToken } :=
    eq_of_yields (isAtEnd_yields View.ofCursor_lawful (at_self (Nat.lt_succ_self _)) Nat.zero_lt_one)
  rw [scanUpTo, Run.bind_of_ok hstart, Run.bind_of_ok hatEnd]
  split <;> rfl

/-- The scanner goes on behind `read`, where there is `rest`. -/
structure Resumes (read rest : List Char) (s : Scanner Cursor) : Prop where
  startToken_eq : s.source.startToken = ⟨[], rest, utf8Length read⟩
  line_eq : s.line = 1 + read.count '\n'

private theorem Resumes.rest_eq (h : Resumes read rest s) : s.source.rest = rest :=
  congrArg Cursor.rest h.startToken_eq

structure Passes (read rest : List Char) (l : Lexeme) (s t : Scanner Cursor) : Prop
    extends Resumes (read ++ l.text) rest t where
  tokens_eq : t.tokens.toList = s.tokens.toList ++ (l.token? (.behind read)).toList

private theorem scanToken_passes (h : Resumes read (c :: rest) s) (hfuel : rest.length < fuel) :
    match scanToken fuel { s with source := s.source.startToken, tokenLine := s.line } with
    | .ok _ t | .error _ t =>
      Passes read (rest.drop ((Lexeme.first c rest).text.length - 1)) (Lexeme.first c rest) s t := by
  have hs : At View.ofCursor (fuel + 1)
      { s with source := s.source.startToken, tokenLine := s.line } _ :=
    at_self (by rw [Cursor.startToken_rest, h.rest_eq]; exact Nat.succ_lt_succ hfuel)
  have hrun := eq_of_yields (scanToken_yields View.ofCursor_lawful hs h.startToken_eq (Nat.le_refl _))
  have hfits := Lexeme.first_fits c rest
  have hleave := Lexeme.leave_startToken (u := ⟨[c], rest, utf8Length read⟩) rfl
    (Lexeme.first_begins c rest)
  have hplace : (⟨utf8Length read, s.line⟩ : Place) = .behind read := by rw [h.line_eq]; rfl
  rw [← Cursor.utf8Length_append] at hleave
  rw [hrun]
  cases herror : (Lexeme.first c rest).error? (.behind read) with
  | none =>
    rw [Lexeme.outcome_of_no_error (by exact hplace ▸ herror)]
    refine ⟨⟨hleave, ?_⟩, ?_⟩
    · simp only [h.line_eq, List.count_append, hfits.count_newline, Nat.add_assoc]
    · simp only [toList_elim_push, hplace]
  | some e =>
    have hlines := Lexeme.lines_of_error herror
    rw [Lexeme.outcome_of_error (by exact hplace ▸ herror)]
    refine ⟨⟨hleave, ?_⟩, ?_⟩
    · simp only [h.line_eq, List.count_append, hfits.count_newline, hlines, Nat.add_zero]
    · simp only [Lexeme.token?_of_error herror, Option.toList_none, List.append_nil]

def ahead (read rest : List Char) : List Token :=
  Lexeme.tokens (.behind read) (Lexeme.division rest)

private theorem ahead_cons (read : List Char) (c : Char) (rest : List Char) :
    ahead read (c :: rest) = ((Lexeme.first c rest).token? (.behind read)).toList ++
      ahead (read ++ (Lexeme.first c rest).text)
        (rest.drop ((Lexeme.first c rest).text.length - 1)) := by
  rw [ahead, Lexeme.division_cons, Lexeme.tokens, Lexeme.Place.after_behind (Lexeme.first_fits c rest)]
  rfl

/-- A part of the text was passed, and no token in it is lost or read twice. -/
structure Moves (read rest : List Char) (s : Scanner Cursor) (passed left : List Char)
    (t : Scanner Cursor) : Prop extends Resumes (read ++ passed) left t where
  rest_eq : rest = passed ++ left
  conserved : ∃ more, t.tokens.toList = s.tokens.toList ++ more ∧
    ahead read rest = more ++ ahead (read ++ passed) left

private theorem Passes.moves {s t : Scanner Cursor}
    (h : Passes read (rest.drop ((Lexeme.first c rest).text.length - 1)) (Lexeme.first c rest) s t) :
    Moves read (c :: rest) s (Lexeme.first c rest).text
      (rest.drop ((Lexeme.first c rest).text.length - 1)) t :=
  ⟨h.toResumes, (Lexeme.first_append_drop c rest).symm, _, h.tokens_eq, ahead_cons read c rest⟩

private theorem Moves.trans {s t u : Scanner Cursor} {passed left passed' left' : List Char}
    (h : Moves read rest s passed left t) (h' : Moves (read ++ passed) left t passed' left' u) :
    Moves read rest s (passed ++ passed') left' u := by
  obtain ⟨more, htokens, hahead⟩ := h.conserved
  obtain ⟨more', htokens', hahead'⟩ := h'.conserved
  refine ⟨by simpa only [List.append_assoc] using h'.toResumes, ?_, more ++ more', ?_, ?_⟩
  · rw [h.rest_eq, h'.rest_eq, List.append_assoc]
  · rw [htokens', htokens, List.append_assoc]
  · rw [hahead, hahead', List.append_assoc, List.append_assoc]

/-- A call reads the text to its end, or it fails further on. -/
theorem scanUpTo_moves (h : Resumes read rest s) (hfuel : rest.length < fuel) :
    match scanUpTo fuel s with
    | .ok _ t => Moves read rest s rest [] t ∧ t.source = ⟨[], [], utf8Length (read ++ rest)⟩
    | .error _ t => ∃ passed left, passed ≠ [] ∧ Moves read rest s passed left t := by
  induction fuel generalizing s read rest with
  | zero => exact absurd hfuel (Nat.not_lt_zero _)
  | succ fuel ih =>
    rw [scanUpTo_eq, h.rest_eq]
    cases rest with
    | nil =>
      have hhere : Resumes (read ++ []) [] { s with source := s.source.startToken } := by
        refine ⟨?_, ?_⟩
        · rw [List.append_nil]
          exact h.startToken_eq
        · rw [List.append_nil]
          exact h.line_eq
      refine ⟨⟨hhere, rfl, [], by simp, by simp⟩, ?_⟩
      rw [List.append_nil]
      exact h.startToken_eq
    | cons c rest =>
      have hpasses := scanToken_passes h (Nat.lt_of_succ_lt_succ hfuel)
      simp only [List.isEmpty_cons, Bool.false_eq_true, if_false]
      cases hrun : scanToken fuel { s with source := s.source.startToken, tokenLine := s.line } with
      | error e t =>
        rw [hrun] at hpasses
        rw [Run.bind_of_error hrun]
        exact ⟨_, _, Lexeme.first_text_ne_nil c rest, hpasses.moves⟩
      | ok a t =>
        rw [hrun] at hpasses
        rw [Run.bind_of_ok hrun]
        have hmoves : Moves read (c :: rest) s _ _ t := hpasses.moves
        have hlater := ih hpasses.toResumes (by
          rw [List.length_drop]
          simp only [List.length_cons] at hfuel
          omega)
        cases hrun' : scanUpTo fuel t with
        | ok a u =>
          rw [hrun'] at hlater
          obtain ⟨hmoves', hsource⟩ := hlater
          have hall := hmoves.trans hmoves'
          rw [← hmoves.rest_eq] at hall
          refine ⟨hall, ?_⟩
          rw [hsource, hmoves.rest_eq, List.append_assoc]
        | error e u =>
          rw [hrun'] at hlater
          obtain ⟨passed, left, hsome, hmoves'⟩ := hlater
          exact ⟨_, left, by simp [Lexeme.first_text_ne_nil], hmoves.trans hmoves'⟩

def endToken (text : List Char) : Token := ⟨.eof, "", none, .behind text []⟩

structure Exhausted (text : List Char) (s : Scanner Cursor) : Prop extends Resumes text [] s where
  tokens_eq : s.tokens = #[]

private theorem scanTokens_moves (h : Resumes read rest s) :
    match scanTokens s with
    | .ok tokens t => tokens = s.tokens.toList ++ ahead read rest ++ [endToken (read ++ rest)] ∧
        Exhausted (read ++ rest) t
    | .error _ t => ∃ passed left, passed ≠ [] ∧ Moves read rest s passed left t := by
  have hmoves := scanUpTo_moves h (Nat.lt_succ_self rest.length)
  have hremaining : Source.remaining s.source = rest.length := congrArg List.length h.rest_eq
  rw [scanTokens, Run.bind_of_ok Run.get_apply, hremaining]
  cases hrun : scanUpTo (rest.length + 1) s with
  | error e t =>
    rw [hrun] at hmoves
    rw [Run.bind_of_error hrun]
    exact hmoves
  | ok a t =>
    rw [hrun] at hmoves
    obtain ⟨hmoves, hsource⟩ := hmoves
    obtain ⟨more, htokens, hahead⟩ := hmoves.conserved
    rw [Run.bind_of_ok hrun, Run.bind_of_ok Run.get_apply, Run.bind_of_ok Run.set_apply]
    refine ⟨?_, ⟨hmoves.startToken_eq, hmoves.line_eq⟩, rfl⟩
    have hnone : ahead (read ++ rest) [] = [] := by rw [ahead, Lexeme.division_nil]; rfl
    rw [hnone, List.append_nil] at hahead
    have hoffset : Source.tokenOffset t.source = utf8Length (read ++ rest) := by rw [hsource]; rfl
    simp only [Array.toList_push, htokens, hahead, hoffset, hmoves.line_eq]
    rfl

private theorem Exhausted.scanTokens_eq {text : List Char} (h : Exhausted text s) :
    ∃ t, scanTokens s = .ok [endToken text] t ∧ Exhausted text t := by
  have hmoves := scanTokens_moves h.toResumes
  have hnone : ahead text [] = [] := by rw [ahead, Lexeme.division_nil]; rfl
  cases hrun : scanTokens s with
  | ok tokens t =>
    rw [hrun] at hmoves
    obtain ⟨rfl, ht⟩ := hmoves
    rw [List.append_nil] at ht
    exact ⟨t, by simp [h.tokens_eq, hnone], ht⟩
  | error e t =>
    rw [hrun] at hmoves
    obtain ⟨passed, left, hsome, hmoves⟩ := hmoves
    exact absurd (List.append_eq_nil_iff.mp hmoves.rest_eq.symm).1 hsome

private theorem Exhausted.rescanned {text : List Char} (h : Exhausted text s) (calls : Nat) :
    Exhausted text (rescanned calls s) := by
  induction calls generalizing s with
  | zero => exact h
  | succ calls ih =>
    obtain ⟨t, hrun, ht⟩ := h.scanTokens_eq
    rw [Scanner.rescanned, hrun]
    exact ih ht

/-- The call fails behind where it began, and keeps the tokens. -/
def FailsOn (s : Scanner Cursor) : Prop :=
  ∃ e t passed, scanTokens s = .error e t ∧ passed ≠ [] ∧ s.source.rest = passed ++ t.source.rest ∧
    s.tokens.toList <+: t.tokens.toList

/-- Some calls fail, and then one hands over all tokens. -/
private theorem exists_failures (h : Resumes read rest s) :
    ∃ failures ≤ rest.length, (∀ k < failures, FailsOn (rescanned k s)) ∧
      ∃ t, scanTokens (rescanned failures s) =
          .ok (s.tokens.toList ++ ahead read rest ++ [endToken (read ++ rest)]) t ∧
        (rescanned failures s).tokens.toList <+: s.tokens.toList ++ ahead read rest ∧
        Exhausted (read ++ rest) t := by
  induction hlength : rest.length using Nat.strongRecOn generalizing s read rest with
  | ind n ih =>
    have hmoves := scanTokens_moves h
    cases hrun : scanTokens s with
    | ok tokens t =>
      rw [hrun] at hmoves
      obtain ⟨rfl, ht⟩ := hmoves
      exact ⟨0, Nat.zero_le _, by simp, t, hrun, List.prefix_append _ _, ht⟩
    | error e t =>
      rw [hrun] at hmoves
      obtain ⟨passed, left, hsome, hmoves⟩ := hmoves
      obtain ⟨more, htokens, hahead⟩ := hmoves.conserved
      have hnext (calls : Nat) : rescanned (calls + 1) s = rescanned calls t := by
        rw [rescanned, hrun]
      have hshorter : left.length < n := by
        have hpos := List.length_pos_iff.mpr hsome
        rw [← hlength, hmoves.rest_eq, List.length_append]
        omega
      obtain ⟨failures, hle, hfails, u, hdone, hheld, hu⟩ := ih _ hshorter hmoves.toResumes rfl
      have hall : t.tokens.toList ++ ahead (read ++ passed) left = s.tokens.toList ++ ahead read rest := by
        rw [htokens, hahead, List.append_assoc]
      have htext : read ++ passed ++ left = read ++ rest := by rw [hmoves.rest_eq, List.append_assoc]
      rw [hall, htext] at hdone
      rw [hall] at hheld
      rw [htext] at hu
      refine ⟨failures + 1, by omega, ?_, u, by rw [hnext]; exact hdone, by rw [hnext]; exact hheld, hu⟩
      intro k hk
      cases k with
      | zero =>
        refine ⟨e, t, passed, hrun, hsome, ?_, more, htokens.symm⟩
        show s.source.rest = _
        rw [h.rest_eq, hmoves.toResumes.rest_eq, hmoves.rest_eq]
      | succ k =>
        rw [hnext]
        exact hfails k (Nat.lt_of_succ_lt_succ hk)

private theorem rescanned_add (m n : Nat) (s : Scanner Cursor) :
    rescanned (m + n) s = rescanned n (rescanned m s) := by
  induction m generalizing s with
  | zero => rw [Nat.zero_add, rescanned]
  | succ m ih =>
    rw [Nat.succ_add, rescanned, rescanned]
    cases scanTokens s with
    | ok _ t | error _ t => exact ih t

/-- A scanner on a text is asked again and again. At most as many calls fail as there are characters,
since each failing call leaves some behind; none of them loses a token. The first call that does not
fail hands over every token of the text, in order, where it stands: between them there are blanks,
comments and the lexemes at fault only. From then on the calls answer the end of the text. -/
theorem resumed_scan (text : String) :
    ∃ failures ≤ text.length,
      (∀ k < failures, FailsOn (rescanned k (.ofSource (Cursor.ofText text.toList)))) ∧
      ∃ ts t,
        scanTokens (rescanned failures (.ofSource (Cursor.ofText text.toList))) =
          .ok (ts ++ [endToken text.toList]) t ∧
        (rescanned failures (.ofSource (Cursor.ofText text.toList))).tokens.toList <+: ts ∧
        t.tokens = #[] ∧
        Divides [] text.toList ts ∧
        (∀ token ∈ ts, token.kind ≠ .eof ∧ token.span.Covers text.toList token.lexeme.toList) ∧
        ((ts ++ [endToken text.toList]).Pairwise fun a b =>
          a.span.offset < b.span.offset ∧ a.span.stop ≤ b.span.offset) ∧
        ∀ later > failures, ∃ u,
          scanTokens (rescanned later (.ofSource (Cursor.ofText text.toList))) =
            .ok [endToken text.toList] u := by
  have hbegin : Resumes [] text.toList (.ofSource (Cursor.ofText text.toList)) := ⟨rfl, rfl⟩
  obtain ⟨failures, hle, hfails, t, hrun, hheld, ht⟩ := exists_failures hbegin
  have hdivides := Lexeme.divides_division [] text.toList
  refine ⟨failures, ?_, hfails, ahead [] text.toList, t, hrun, hheld, ht.tokens_eq, hdivides,
    fun token htoken => ⟨hdivides.kind_ne_eof htoken, hdivides.covers htoken⟩, ?_, ?_⟩
  · rwa [String.length_toList] at hle
  · have hordered := hdivides.ordered
    have hmap : (ahead [] text.toList).map Token.span ++ [Span.behind ([] ++ text.toList) []] =
        (ahead [] text.toList ++ [endToken text.toList]).map Token.span := by
      rw [List.map_append]
      rfl
    rw [← ahead, hmap, List.pairwise_map] at hordered
    exact hordered
  · intro later hlater
    obtain ⟨more, rfl⟩ := Nat.exists_eq_add_of_lt hlater
    have hnext : rescanned (failures + more + 1) (.ofSource (Cursor.ofText text.toList)) =
        rescanned more t := by
      rw [Nat.add_assoc, rescanned_add, rescanned, hrun]
    obtain ⟨u, hu, -⟩ := (ht.rescanned more).scanTokens_eq
    rw [hnext]
    exact ⟨u, hu⟩

end Scanner
end Copione
