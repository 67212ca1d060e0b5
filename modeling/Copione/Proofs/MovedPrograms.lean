import Copione.Proofs.JoinedTexts
import Copione.Proofs.ParserSpelling
/-!
# Programs that stand elsewhere

A program whose tokens are moved moves with them, and stays the same otherwise. So the programs of two
texts are read one after the other when the texts are joined by a newline.
-/
namespace Copione

mutual

def Expr.shift (d : Shift) : Expr → Expr
  | .literal value s => .literal value (s.shift d)
  | .name n s => .name n (s.shift d)
  | .group inner s => .group (inner.shift d) (s.shift d)
  | .unary op operand s => .unary op (operand.shift d) (s.shift d)
  | .binary op left right s => .binary op (left.shift d) (right.shift d) (s.shift d)
  | .logical op left right s => .logical op (left.shift d) (right.shift d) (s.shift d)
  | .assign n value s => .assign n (value.shift d) (s.shift d)
  | .call callee arguments s => .call (callee.shift d) (Expr.shiftAll d arguments) (s.shift d)
  | .get object n s => .get (object.shift d) n (s.shift d)
  | .set object n value s => .set (object.shift d) n (value.shift d) (s.shift d)
  | .questo s => .questo (s.shift d)
  | .super method s => .super method (s.shift d)

def Expr.shiftAll (d : Shift) : List Expr → List Expr
  | [] => []
  | e :: es => e.shift d :: Expr.shiftAll d es

end

mutual

def Stmt.shift (d : Shift) : Stmt → Stmt
  | .expr value s => .expr (value.shift d) (s.shift d)
  | .var name initial s => .var name (initial.map (Expr.shift d)) (s.shift d)
  | .block body s => .block (Stmt.shiftAll d body) (s.shift d)
  | .cond condition thenBranch elseBranch s =>
    .cond (condition.shift d) (thenBranch.shift d) (Stmt.shiftElse d elseBranch) (s.shift d)
  | .loop condition body s => .loop (condition.shift d) (body.shift d) (s.shift d)
  | .function name params body s => .function name params (Stmt.shiftAll d body) (s.shift d)
  | .ret value s => .ret (value.map (Expr.shift d)) (s.shift d)

def Stmt.shiftAll (d : Shift) : List Stmt → List Stmt
  | [] => []
  | s :: ss => s.shift d :: Stmt.shiftAll d ss

def Stmt.shiftElse (d : Shift) : Option Stmt → Option Stmt
  | none => none
  | some s => some (s.shift d)

end

theorem Stmt.shiftAll_eq (d : Shift) (ss : List Stmt) : Stmt.shiftAll d ss = ss.map (Stmt.shift d) := by
  induction ss with
  | nil => rfl
  | cons s ss ih => rw [Stmt.shiftAll, ih, List.map_cons]

variable {d : Shift}

@[simp] theorem Expr.shift_span (e : Expr) : (e.shift d).span = e.span.shift d := by
  cases e <;> simp [Expr.shift, Expr.span]

theorem Token.map_word_shift (ts : List Token) :
    (ts.map (Token.shift d)).map Token.word = ts.map Token.word := by
  rw [List.map_map]
  rfl

private theorem Token.getLast?_shift {ts : List Token} {last : Token} (h : ts.getLast? = some last) :
    (ts.map (Token.shift d)).getLast? = some (last.shift d) := by
  rw [List.getLast?_map, h]
  rfl

private theorem Span.shift_through (s last : Span) :
    (s.through last).shift d = (s.shift d).through (last.shift d) := by
  simp only [shift, through, stop, mk.injEq, true_and, and_true]
  omega

mutual

@[simp] theorem Expr.erase_shift : ∀ e : Expr, (e.shift d).erase = e.erase
  | .literal _ _ | .name _ _ | .questo _ | .super _ _ => by simp [Expr.shift, Expr.erase]
  | .group inner _ => by simp [Expr.shift, Expr.erase, inner.erase_shift]
  | .unary _ operand _ => by simp [Expr.shift, Expr.erase, operand.erase_shift]
  | .binary _ left right _ => by simp [Expr.shift, Expr.erase, left.erase_shift, right.erase_shift]
  | .logical _ left right _ => by simp [Expr.shift, Expr.erase, left.erase_shift, right.erase_shift]
  | .assign _ value _ => by simp [Expr.shift, Expr.erase, value.erase_shift]
  | .call callee arguments _ => by
    simp [Expr.shift, Expr.erase, callee.erase_shift, Expr.eraseAll_shiftAll arguments]
  | .get object _ _ => by simp [Expr.shift, Expr.erase, object.erase_shift]
  | .set object _ value _ => by simp [Expr.shift, Expr.erase, object.erase_shift, value.erase_shift]

theorem Expr.eraseAll_shiftAll :
    ∀ es : List Expr, Expr.eraseAll (Expr.shiftAll d es) = Expr.eraseAll es
  | [] => rfl
  | e :: es => by simp [Expr.shiftAll, Expr.eraseAll, e.erase_shift, Expr.eraseAll_shiftAll es]

end

mutual

@[simp] theorem Stmt.erase_shift : ∀ s : Stmt, (s.shift d).erase = s.erase
  | .expr value _ => by simp [Stmt.shift, Stmt.erase]
  | .var _ initial _ => by cases initial <;> simp [Stmt.shift, Stmt.erase]
  | .block body _ => by simp [Stmt.shift, Stmt.erase, Stmt.eraseAll_shiftAll body]
  | .cond condition thenBranch elseBranch _ => by
    simp [Stmt.shift, Stmt.erase, thenBranch.erase_shift, Stmt.eraseElse_shiftElse elseBranch]
  | .loop condition body _ => by simp [Stmt.shift, Stmt.erase, body.erase_shift]
  | .function _ _ body _ => by simp [Stmt.shift, Stmt.erase, Stmt.eraseAll_shiftAll body]
  | .ret value _ => by cases value <;> simp [Stmt.shift, Stmt.erase]

theorem Stmt.eraseAll_shiftAll :
    ∀ ss : List Stmt, Stmt.eraseAll (Stmt.shiftAll d ss) = Stmt.eraseAll ss
  | [] => rfl
  | s :: ss => by simp [Stmt.shiftAll, Stmt.eraseAll, s.erase_shift, Stmt.eraseAll_shiftAll ss]

theorem Stmt.eraseElse_shiftElse :
    ∀ s : Option Stmt, Stmt.eraseElse (Stmt.shiftElse d s) = Stmt.eraseElse s
  | none => rfl
  | some s => by simp [Stmt.shiftElse, Stmt.eraseElse, s.erase_shift]

end

mutual

theorem Expr.Spelled.shift : ∀ {ts : List Token} {e : Expr}, e.Spelled ts →
    (e.shift d).Spelled (ts.map (Token.shift d))
  | _, _, .literal h => .literal h
  | _, _, .name h => .name h
  | _, _, .questo h => .questo h
  | _, _, .super h hdot hmethod => by
    rw [Expr.shift, Span.shift_through]
    exact .super h hdot hmethod
  | _, _, .group hopen h hclose => by
    rw [Expr.shift, Span.shift_through, List.map_append]
    exact .group hopen h.shift hclose
  | _, _, .unary hop h => by
    rw [Expr.shift, Span.shift_through, ← Expr.shift_span]
    exact .unary hop h.shift
  | _, _, .binary hleft hop hright => by
    rw [Expr.shift, Span.shift_through, ← Expr.shift_span, ← Expr.shift_span, List.map_append]
    exact .binary hleft.shift hop hright.shift
  | _, _, .logical hleft hop hright => by
    rw [Expr.shift, Span.shift_through, ← Expr.shift_span, ← Expr.shift_span, List.map_append]
    exact .logical hleft.shift hop hright.shift
  | _, _, .assign hname hsign h => by
    rw [Expr.shift, Span.shift_through, ← Expr.shift_span]
    exact .assign hname hsign h.shift
  | _, _, .call hcallee hopen harguments hclose => by
    rw [Expr.shift, Span.shift_through, ← Expr.shift_span, List.map_append, List.map_cons,
      List.map_append]
    exact .call hcallee.shift hopen harguments.shift hclose
  | _, _, .get h hdot hname => by
    rw [Expr.shift, Span.shift_through, ← Expr.shift_span, List.map_append]
    exact .get h.shift hdot hname
  | _, _, .set hobject hdot hname hsign hvalue => by
    rw [Expr.shift, Span.shift_through, ← Expr.shift_span, ← Expr.shift_span, List.map_append]
    exact .set hobject.shift hdot hname hsign hvalue.shift

theorem Expr.SpelledAll.shift : ∀ {ts : List Token} {es : List Expr}, Expr.SpelledAll ts es →
    Expr.SpelledAll (ts.map (Token.shift d)) (Expr.shiftAll d es)
  | _, _, .nil => .nil
  | _, _, .one h => .one h.shift
  | _, _, .cons h hcomma hs => by
    rw [List.map_append]
    exact .cons h.shift hcomma hs.shift

end

mutual

theorem Stmt.Spelled.shift : ∀ {ts : List Token} {s : Stmt}, s.Spelled ts →
    (s.shift d).Spelled (ts.map (Token.shift d))
  | _, _, .expr h hend => by
    rw [Stmt.shift, Span.shift_through, ← Expr.shift_span, List.map_append]
    exact .expr h.shift hend
  | _, _, .var h hname hend => by
    rw [Stmt.shift, Span.shift_through]
    exact .var h hname hend
  | _, _, .varInit h hname hsign hvalue hend => by
    simp only [Stmt.shift, Span.shift_through, List.map_cons, List.map_append]
    exact .varInit h hname hsign hvalue.shift hend
  | _, _, .block hopen h hclose => by
    rw [Stmt.shift, Span.shift_through, List.map_cons, List.map_append]
    exact .block hopen h.shift hclose
  | _, _, .onlyThen h hopen hcondition hclose hthen hlast => by
    simp only [Stmt.shift, Stmt.shiftElse, Span.shift_through, ← Token.shift_span, List.map_cons,
      List.map_append]
    exact .onlyThen h hopen hcondition.shift hclose hthen.shift (Token.getLast?_shift hlast)
  | _, _, .thenElse h hopen hcondition hclose hthen hoppure helse hlast => by
    simp only [Stmt.shift, Stmt.shiftElse, Span.shift_through, ← Token.shift_span, List.map_cons,
      List.map_append]
    exact .thenElse h hopen hcondition.shift hclose hthen.shift hoppure helse.shift
      (Token.getLast?_shift hlast)
  | _, _, .loop h hopen hcondition hclose hbody hlast => by
    simp only [Stmt.shift, Span.shift_through, ← Token.shift_span, List.map_cons, List.map_append]
    exact .loop h hopen hcondition.shift hclose hbody.shift (Token.getLast?_shift hlast)
  | _, _, .function h hname hopen hparams hclose hbrace hbody hend => by
    simp only [Stmt.shift, Span.shift_through, List.map_cons, List.map_append]
    exact .function h hname hopen ((Token.map_word_shift _).trans hparams) hclose hbrace
      hbody.shift hend
  | _, _, .ret h hend => by
    rw [Stmt.shift, Span.shift_through]
    exact .ret h hend
  | _, _, .retValue h hvalue hend => by
    rw [Stmt.shift, Span.shift_through, List.map_cons, List.map_append]
    exact .retValue h hvalue.shift hend

theorem Stmt.SpelledAll.shift : ∀ {ts : List Token} {ss : List Stmt}, Stmt.SpelledAll ts ss →
    Stmt.SpelledAll (ts.map (Token.shift d)) (Stmt.shiftAll d ss)
  | _, _, .nil => .nil
  | _, _, .cons h hs => by
    rw [List.map_append]
    exact .cons h.shift hs.shift

end

def Span.BeginsIn (ts : List Token) (s : Span) : Prop :=
  ∃ t ∈ ts, s.offset = t.span.offset ∧ s.line = t.line

private theorem Span.beginsIn_of_mem {t : Token} {ts : List Token} (h : t ∈ ts) : t.span.BeginsIn ts :=
  ⟨t, h, rfl, rfl⟩

private theorem Span.BeginsIn.mono {s : Span} {ts us : List Token} (h : s.BeginsIn ts)
    (hsub : ts ⊆ us) :
    s.BeginsIn us := by
  obtain ⟨t, ht, hbegin⟩ := h
  exact ⟨t, hsub ht, hbegin⟩

private theorem Span.BeginsIn.through {s : Span} {ts : List Token} (h : s.BeginsIn ts) (last : Span) :
    (s.through last).BeginsIn ts := h

private theorem Expr.Spelled.beginsIn : ∀ {ts : List Token} {e : Expr}, e.Spelled ts →
    e.span.BeginsIn ts
  | _, _, .literal _ | _, _, .name _ | _, _, .questo _ | _, _, .super _ _ _ | _, _, .group _ _ _
  | _, _, .unary _ _ | _, _, .assign _ _ _ => ⟨_, List.mem_cons_self, rfl, rfl⟩
  | _, _, .binary h _ _ | _, _, .logical h _ _ | _, _, .call h _ _ _ | _, _, .get h _ _
  | _, _, .set h _ _ _ _ => (h.beginsIn.through _).mono (List.subset_append_left _ _)

section Alike

variable {R : Span → Span → Prop} {ok : String → Prop} {d' : Shift}

/-- Wherever a span that begins in the tokens is moved to by the two shifts, the one place
corresponds to the other. -/
def Span.Carries (R : Span → Span → Prop) (d d' : Shift) (ts : List Token) : Prop :=
  ∀ s : Span, s.BeginsIn ts → R (s.shift d) (s.shift d')

namespace Span.Carries

variable {ts us : List Token}

theorem mono (h : Carries R d d' us) (hsub : ts ⊆ us) : Carries R d d' ts :=
  fun s hs => h s (hs.mono hsub)

private theorem mem {t : Token} (h : Carries R d d' ts) (ht : t ∈ ts) :
    R (t.span.shift d) (t.span.shift d') := h _ (beginsIn_of_mem ht)

private theorem through {t : Token} (h : Carries R d d' ts) (ht : t ∈ ts) (last : Span) :
    R ((t.span.through last).shift d) ((t.span.through last).shift d') :=
  h _ ((beginsIn_of_mem ht).through last)

private theorem expr {e : Expr} (h : Carries R d d' us) (he : e.Spelled ts) (hsub : ts ⊆ us)
    (last : Span) :
    R ((e.span.through last).shift d) ((e.span.through last).shift d') :=
  h _ ((he.beginsIn.mono hsub).through last)

end Span.Carries

mutual

private theorem Expr.Spelled.alike : ∀ {ts : List Token} {e : Expr}, e.Spelled ts →
    Span.Carries R d d' ts → (e.shift d).Alike R (e.shift d')
  | _, _, .literal _, hR => .literal _ (hR.mem (by simp))
  | _, _, .name _, hR => .name _ (hR.mem (by simp))
  | _, _, .questo _, hR => .questo (hR.mem (by simp))
  | _, _, .super _ _ _, hR => .super _ (hR.through (by simp) _)
  | _, _, .group _ h _, hR =>
    .group (h.alike (hR.mono fun t ht => by simp [ht])) (hR.through (by simp) _)
  | _, _, .unary _ h, hR =>
    .unary _ (h.alike (hR.mono fun t ht => by simp [ht])) (hR.through (by simp) _)
  | _, _, .binary hleft _ hright, hR =>
    .binary _ (hleft.alike (hR.mono fun t ht => by simp [ht]))
      (hright.alike (hR.mono fun t ht => by simp [ht])) (hR.expr hleft (by simp) _)
  | _, _, .logical hleft _ hright, hR =>
    .logical _ (hleft.alike (hR.mono fun t ht => by simp [ht]))
      (hright.alike (hR.mono fun t ht => by simp [ht])) (hR.expr hleft (by simp) _)
  | _, _, .assign _ _ h, hR =>
    .assign _ (h.alike (hR.mono fun t ht => by simp [ht])) (hR.through (by simp) _)
  | _, _, .call hcallee _ harguments _, hR =>
    .call (hcallee.alike (hR.mono fun t ht => by simp [ht]))
      (harguments.alike (hR.mono fun t ht => by simp [ht])) (hR.expr hcallee (by simp) _)
  | _, _, .get h _ _, hR =>
    .get _ (h.alike (hR.mono fun t ht => by simp [ht])) (hR.expr h (by simp) _)
  | _, _, .set hobject _ _ _ hvalue, hR =>
    .set _ (hobject.alike (hR.mono fun t ht => by simp [ht]))
      (hvalue.alike (hR.mono fun t ht => by simp [ht])) (hR.expr hobject (by simp) _)

theorem Expr.SpelledAll.alike : ∀ {ts : List Token} {es : List Expr}, Expr.SpelledAll ts es →
    Span.Carries R d d' ts → List.Forall₂ (Expr.Alike R) (Expr.shiftAll d es) (Expr.shiftAll d' es)
  | _, _, .nil, _ => .nil
  | _, _, .one h, hR => .cons (h.alike hR) .nil
  | _, _, .cons h _ hs, hR =>
    .cons (h.alike (hR.mono fun t ht => by simp [ht])) (hs.alike (hR.mono fun t ht => by simp [ht]))

end

theorem mem_commas {item : List Word} {items : List (List Word)} (h : item ∈ items) :
    item ⊆ commas items := by
  induction items with
  | nil => cases h
  | cons first items ih =>
    cases items with
    | nil =>
      obtain rfl := List.mem_singleton.1 h
      exact List.Subset.refl _
    | cons second items =>
      obtain rfl | h := List.mem_cons.1 h
      · exact List.subset_append_left _ _
      · exact fun w hw => List.mem_append_right _ (List.mem_cons_of_mem _ (ih h hw))

mutual

/-- A statement that is moved to two places is alike in both, where names may be declared and where
it returns. -/
theorem Stmt.Spelled.alike : ∀ {ts : List Token} {s : Stmt} {inside : Bool}, s.Spelled ts →
    s.WellFormed inside → Span.Carries R d d' ts → (∀ t ∈ ts, ∀ n, t.word = .name n → ok n) →
      Stmt.Alike R ok inside (s.shift d) (s.shift d')
  | _, _, _, .expr h _, _, hR, _ =>
    .expr (h.alike (hR.mono fun t ht => by simp [ht])) (hR.expr h (by simp) _)
  | _, _, _, .var _ hname _, _, hR, hok =>
    .var (hok _ (by simp) _ hname) .none (hR.through (by simp) _)
  | _, _, _, .varInit _ hname _ h _, _, hR, hok =>
    .var (hok _ (by simp) _ hname) (.some (h.alike (hR.mono fun t ht => by simp [ht])))
      (hR.through (by simp) _)
  | _, _, _, .block _ h _, .block hwell _, hR, hok =>
    .block (h.alike hwell (hR.mono fun t ht => by simp [ht]) fun t ht => hok t (by simp [ht]))
      (hR.through (by simp) _)
  | _, _, _, .onlyThen _ _ hcondition _ hthen _, .cond _ hthenWell _ _ _ _ _, hR, hok =>
    .onlyThen (hcondition.alike (hR.mono fun t ht => by simp [ht]))
      (hthen.alike hthenWell (hR.mono fun t ht => by simp [ht]) fun t ht => hok t (by simp [ht]))
      (hR.through (by simp) _)
  | _, _, _, .thenElse _ _ hcondition _ hthen _ helse _, .cond _ hthenWell _ helseWell _ _ _, hR,
      hok =>
    .thenElse (hcondition.alike (hR.mono fun t ht => by simp [ht]))
      (hthen.alike hthenWell (hR.mono fun t ht => by simp [ht]) fun t ht => hok t (by simp [ht]))
      (helse.alike (helseWell _ rfl) (hR.mono fun t ht => by simp [ht]) fun t ht =>
        hok t (by simp [ht]))
      (hR.through (by simp) _)
  | _, _, _, .loop _ _ hcondition _ hbody _, .loop _ hbodyWell _ _, hR, hok =>
    .loop (hcondition.alike (hR.mono fun t ht => by simp [ht]))
      (hbody.alike hbodyWell (hR.mono fun t ht => by simp [ht]) fun t ht => hok t (by simp [ht]))
      (hR.through (by simp) _)
  | _, _, _, .function _ hname _ hparams _ _ hbody _, .function hwell _ _ _, hR, hok => by
    refine .function (hok _ (by simp) _ hname) (fun p hp => ?_) (hbody.alike hwell
      (hR.mono fun t ht => by simp [ht]) fun t ht => hok t (by simp [ht])) (hR.through (by simp) _)
    -- a parameter is said by one of the tokens
    have hword : Word.name p ∈ List.map Token.word _ :=
      hparams ▸ mem_commas (List.mem_map_of_mem hp) (List.mem_singleton_self _)
    obtain ⟨t, ht, hp⟩ := List.mem_map.1 hword
    exact hok t (by simp [ht]) p hp
  | _, _, _, .ret _ _, .ret _ _, hR, _ => .ret .none (hR.through (by simp) _)
  | _, _, _, .retValue _ h _, .ret _ _, hR, _ =>
    .ret (.some (h.alike (hR.mono fun t ht => by simp [ht]))) (hR.through (by simp) _)

theorem Stmt.SpelledAll.alike : ∀ {ts : List Token} {ss : List Stmt} {inside : Bool},
    Stmt.SpelledAll ts ss → (∀ s ∈ ss, s.WellFormed inside) → Span.Carries R d d' ts →
    (∀ t ∈ ts, ∀ n, t.word = .name n → ok n) →
      Stmt.AllAlike R ok inside (Stmt.shiftAll d ss) (Stmt.shiftAll d' ss)
  | _, _, _, .nil, _, _, _ => .nil
  | _, _, _, .cons h hs, hwell, hR, hok =>
    .cons
      (h.alike (hwell _ (by simp)) (hR.mono fun t ht => by simp [ht]) fun t ht => hok t (by simp [ht]))
      (hs.alike (fun s hs => hwell s (by simp [hs])) (hR.mono fun t ht => by simp [ht]) fun t ht =>
        hok t (by simp [ht]))

end

end Alike

private theorem Stmt.SpelledAll.append : ∀ {ts us : List Token} {first second : List Stmt},
    Stmt.SpelledAll ts first → Stmt.SpelledAll us second → Stmt.SpelledAll (ts ++ us) (first ++ second)
  | _, _, _, _, .nil, h' => h'
  | _, _, _, _, .cons h hs, h' => by
    rw [List.append_assoc]
    exact .cons h (hs.append h')

namespace Program

theorem parse_of_words {ts : List Token} {e : Token} {same : List Stmt} (he : e.kind = .eof)
    (hsame : ∀ s ∈ same, s.WellFormed false) (hts : ts.map Token.word = Stmt.wordsOfAll same) :
    ∃ found, parse (ts ++ [e]) = .ok found ∧ found.map Stmt.erase = same.map Stmt.erase := by
  have heof : e.word = .mark .eof := by
    obtain ⟨kind, lexeme, literal, span⟩ := e
    obtain rfl : kind = .eof := he
    rfl
  have hwords : (ts ++ [e]).map Token.word = words same := by
    rw [List.map_append, hts, List.map_singleton, heof, words]
  obtain ⟨found, q, hrun, hpassed, hfound⟩ := Parser.program_finds hsame hwords
  have hclean : q.errors.isEmpty := by
    rw [hpassed.errors_eq]
    rfl
  refine ⟨found, ?_, hfound⟩
  rw [parse, hrun]
  dsimp only
  rw [if_pos hclean]

/-- A program is read from every list of tokens that spells it. -/
theorem parse_of_spelled {ts : List Token} {e : Token} {program : List Stmt}
    (hts : ∀ t ∈ ts, t.kind ≠ .eof) (he : e.kind = .eof) (h : Stmt.SpelledAll ts program)
    (same : List Stmt) (hsame : ∀ s ∈ same, s.WellFormed false)
    (herase : Stmt.eraseAll program = Stmt.eraseAll same) : parse (ts ++ [e]) = .ok program := by
  have hwords : ts.map Token.word = Stmt.wordsOfAll same := by
    rw [h.words, ← Stmt.wordsOfAll_eraseAll same, ← herase, Stmt.wordsOfAll_eraseAll]
  obtain ⟨found, hparse, hfound⟩ := parse_of_words he hsame hwords
  -- what is found is spelled by the same tokens and says the same
  obtain ⟨hspelled, -⟩ := parse_spelled hts he hparse
  rw [hparse, h.unique hspelled rfl]
  rw [herase, Stmt.eraseAll_eq, Stmt.eraseAll_eq, hfound]

/-- The program of two lists of tokens, the second moved behind the first, is that of the first and
behind it that of the second, moved as well. -/
theorem parse_append {ts us : List Token} {e e' : Token} {first second : List Stmt}
    (hts : ∀ t ∈ ts, t.kind ≠ .eof) (he : e.kind = .eof) (hus : ∀ t ∈ us, t.kind ≠ .eof)
    (he' : e'.kind = .eof) (hfirst : parse (ts ++ [e]) = .ok first)
    (hsecond : parse (us ++ [e']) = .ok second) (d : Shift) :
    parse (ts ++ (us ++ [e']).map (Token.shift d)) = .ok (first ++ second.map (Stmt.shift d)) := by
  obtain ⟨hspelled, hwell⟩ := parse_spelled hts he hfirst
  obtain ⟨hspelled', hwell'⟩ := parse_spelled hus he' hsecond
  rw [List.map_append, ← List.append_assoc, ← Stmt.shiftAll_eq]
  refine parse_of_spelled ?_ he' (hspelled.append hspelled'.shift) (first ++ second) ?_ ?_
  · intro t ht
    obtain ht | ht := List.mem_append.1 ht
    · exact hts t ht
    · obtain ⟨u, hu, rfl⟩ := List.mem_map.1 ht
      exact hus u hu
  · intro s hs
    exact (List.mem_append.1 hs).elim (hwell s) (hwell' s)
  · simp only [Stmt.eraseAll_eq, Stmt.shiftAll_eq, List.map_append, List.map_map, Function.comp_def,
      Stmt.erase_shift]

end Program
end Copione
