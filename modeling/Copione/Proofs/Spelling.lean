import Copione.Proofs.Likeness
import Copione.Proofs.ParserCompleteness
/-!
# Trees and the tokens that spell them

Which tokens spell out a tree, and with them its spans: each part of a tree begins where its first
token does, on the line of that token. A tree is settled by its tokens and by what it says.
-/
namespace Copione

mutual

/-- The tokens spell out the expression, and its spans are theirs. -/
inductive Expr.Spelled : List Token → Expr → Prop
  | literal {t : Token} {value : Constant} (h : t.word = .constant value) :
    Expr.Spelled [t] (.literal value t.span)
  | name {t : Token} {n : String} (h : t.word = .name n) : Expr.Spelled [t] (.name n t.span)
  | questo {t : Token} (h : t.word = .mark .questo) : Expr.Spelled [t] (.questo t.span)
  | super {t dot last : Token} {method : String} (h : t.word = .mark .super)
    (hdot : dot.word = .mark .dot) (hmethod : last.word = .name method) :
    Expr.Spelled [t, dot, last] (.super method (t.span.through last.span))
  | group {t last : Token} {ts : List Token} {inner : Expr} (hopen : t.word = .mark .leftParen)
    (h : Expr.Spelled ts inner) (hclose : last.word = .mark .rightParen) :
    Expr.Spelled (t :: ts ++ [last]) (.group inner (t.span.through last.span))
  | unary {t : Token} {ts : List Token} {op : UnaryOp} {operand : Expr}
    (hop : t.word = .mark op.kind) (h : Expr.Spelled ts operand) :
    Expr.Spelled (t :: ts) (.unary op operand (t.span.through operand.span))
  | binary {ts us : List Token} {t : Token} {op : BinaryOp} {left right : Expr}
    (hleft : Expr.Spelled ts left) (hop : t.word = .mark op.kind) (hright : Expr.Spelled us right) :
    Expr.Spelled (ts ++ t :: us) (.binary op left right (left.span.through right.span))
  | logical {ts us : List Token} {t : Token} {op : LogicalOp} {left right : Expr}
    (hleft : Expr.Spelled ts left) (hop : t.word = .mark op.kind) (hright : Expr.Spelled us right) :
    Expr.Spelled (ts ++ t :: us) (.logical op left right (left.span.through right.span))
  | assign {t sign : Token} {ts : List Token} {n : String} {value : Expr} (hname : t.word = .name n)
    (hsign : sign.word = .mark .equal) (h : Expr.Spelled ts value) :
    Expr.Spelled (t :: sign :: ts) (.assign n value (t.span.through value.span))
  | call {ts us : List Token} {t last : Token} {callee : Expr} {arguments : List Expr}
    (hcallee : Expr.Spelled ts callee) (hopen : t.word = .mark .leftParen)
    (harguments : Expr.SpelledAll us arguments) (hclose : last.word = .mark .rightParen) :
    Expr.Spelled (ts ++ t :: (us ++ [last])) (.call callee arguments (callee.span.through last.span))
  | get {ts : List Token} {dot last : Token} {object : Expr} {n : String}
    (h : Expr.Spelled ts object) (hdot : dot.word = .mark .dot) (hname : last.word = .name n) :
    Expr.Spelled (ts ++ [dot, last]) (.get object n (object.span.through last.span))
  | set {ts us : List Token} {dot t sign : Token} {object value : Expr} {n : String}
    (hobject : Expr.Spelled ts object) (hdot : dot.word = .mark .dot) (hname : t.word = .name n)
    (hsign : sign.word = .mark .equal) (hvalue : Expr.Spelled us value) :
    Expr.Spelled (ts ++ dot :: t :: sign :: us)
      (.set object n value (object.span.through value.span))

inductive Expr.SpelledAll : List Token → List Expr → Prop
  | nil : Expr.SpelledAll [] []
  | one {ts : List Token} {e : Expr} (h : Expr.Spelled ts e) : Expr.SpelledAll ts [e]
  | cons {ts us : List Token} {comma : Token} {e e' : Expr} {es : List Expr} (h : Expr.Spelled ts e)
    (hcomma : comma.word = .mark .comma) (hs : Expr.SpelledAll us (e' :: es)) :
    Expr.SpelledAll (ts ++ comma :: us) (e :: e' :: es)

end

mutual

inductive Stmt.Spelled : List Token → Stmt → Prop
  | expr {ts : List Token} {last : Token} {value : Expr} (h : value.Spelled ts)
    (hend : last.word = .mark .semicolon) :
    Stmt.Spelled (ts ++ [last]) (.expr value (value.span.through last.span))
  | var {t name last : Token} {n : String} (h : t.word = .mark .variabile) (hname : name.word = .name n)
    (hend : last.word = .mark .semicolon) :
    Stmt.Spelled [t, name, last] (.var n none (t.span.through last.span))
  | varInit {t name sign last : Token} {ts : List Token} {n : String} {value : Expr}
    (h : t.word = .mark .variabile) (hname : name.word = .name n) (hsign : sign.word = .mark .equal)
    (hvalue : value.Spelled ts) (hend : last.word = .mark .semicolon) :
    Stmt.Spelled (t :: name :: sign :: (ts ++ [last])) (.var n (some value) (t.span.through last.span))
  | block {t last : Token} {ts : List Token} {body : List Stmt} (hopen : t.word = .mark .leftBrace)
    (h : Stmt.SpelledAll ts body) (hclose : last.word = .mark .rightBrace) :
    Stmt.Spelled (t :: (ts ++ [last])) (.block body (t.span.through last.span))
  | onlyThen {t left right last : Token} {ts us : List Token} {condition : Expr} {thenBranch : Stmt}
    (h : t.word = .mark .se) (hopen : left.word = .mark .leftParen) (hcondition : condition.Spelled ts)
    (hclose : right.word = .mark .rightParen) (hthen : Stmt.Spelled us thenBranch)
    (hlast : us.getLast? = some last) :
    Stmt.Spelled (t :: left :: (ts ++ right :: us))
      (.cond condition thenBranch none (t.span.through last.span))
  | thenElse {t left right oppure last : Token} {ts us vs : List Token} {condition : Expr}
    {thenBranch elseBranch : Stmt} (h : t.word = .mark .se) (hopen : left.word = .mark .leftParen)
    (hcondition : condition.Spelled ts) (hclose : right.word = .mark .rightParen)
    (hthen : Stmt.Spelled us thenBranch) (hoppure : oppure.word = .mark .oppure)
    (helse : Stmt.Spelled vs elseBranch) (hlast : vs.getLast? = some last) :
    Stmt.Spelled (t :: left :: (ts ++ right :: (us ++ oppure :: vs)))
      (.cond condition thenBranch (some elseBranch) (t.span.through last.span))
  | loop {t left right last : Token} {ts us : List Token} {condition : Expr} {body : Stmt}
    (h : t.word = .mark .mentre) (hopen : left.word = .mark .leftParen)
    (hcondition : condition.Spelled ts) (hclose : right.word = .mark .rightParen)
    (hbody : Stmt.Spelled us body) (hlast : us.getLast? = some last) :
    Stmt.Spelled (t :: left :: (ts ++ right :: us)) (.loop condition body (t.span.through last.span))
  | function {t name left right brace last : Token} {ts us : List Token} {n : String}
    {params : List String} {body : List Stmt} (h : t.word = .mark .funzione)
    (hname : name.word = .name n) (hopen : left.word = .mark .leftParen)
    (hparams : ts.map Token.word = commas (params.map fun p => [.name p]))
    (hclose : right.word = .mark .rightParen) (hbrace : brace.word = .mark .leftBrace)
    (hbody : Stmt.SpelledAll us body) (hend : last.word = .mark .rightBrace) :
    Stmt.Spelled (t :: name :: left :: (ts ++ right :: brace :: (us ++ [last])))
      (.function n params body (t.span.through last.span))
  | ret {t last : Token} (h : t.word = .mark .ritorna) (hend : last.word = .mark .semicolon) :
    Stmt.Spelled [t, last] (.ret none (t.span.through last.span))
  | retValue {t last : Token} {ts : List Token} {value : Expr} (h : t.word = .mark .ritorna)
    (hvalue : value.Spelled ts) (hend : last.word = .mark .semicolon) :
    Stmt.Spelled (t :: (ts ++ [last])) (.ret (some value) (t.span.through last.span))

inductive Stmt.SpelledAll : List Token → List Stmt → Prop
  | nil : Stmt.SpelledAll [] []
  | cons {ts us : List Token} {s : Stmt} {ss : List Stmt} (h : Stmt.Spelled ts s)
    (hs : Stmt.SpelledAll us ss) : Stmt.SpelledAll (ts ++ us) (s :: ss)

end

mutual

theorem Expr.Spelled.words : ∀ {ts : List Token} {e : Expr}, e.Spelled ts → ts.map Token.word = e.words
  | _, _, .literal h => by simp [Expr.words, h]
  | _, _, .name h => by simp [Expr.words, h]
  | _, _, .questo h => by simp [Expr.words, h]
  | _, _, .super h hdot hmethod => by simp [Expr.words, h, hdot, hmethod]
  | _, _, .group hopen h hclose => by simp [Expr.words, hopen, h.words, hclose]
  | _, _, .unary hop h => by simp [Expr.words, hop, h.words]
  | _, _, .binary hleft hop hright => by simp [Expr.words, hleft.words, hop, hright.words]
  | _, _, .logical hleft hop hright => by simp [Expr.words, hleft.words, hop, hright.words]
  | _, _, .assign hname hsign h => by simp [Expr.words, hname, hsign, h.words]
  | _, _, .call hcallee hopen harguments hclose => by
    simp [Expr.words, hcallee.words, hopen, harguments.words, hclose]
  | _, _, .get h hdot hname => by simp [Expr.words, h.words, hdot, hname]
  | _, _, .set hobject hdot hname hsign hvalue => by
    simp [Expr.words, hobject.words, hdot, hname, hsign, hvalue.words]

theorem Expr.SpelledAll.words :
    ∀ {ts : List Token} {es : List Expr}, Expr.SpelledAll ts es →
      ts.map Token.word = commas (Expr.wordsOfAll es)
  | _, _, .nil => rfl
  | _, _, .one h => by simp [Expr.wordsOfAll, commas, h.words]
  | _, _, .cons h hcomma hs => by
    have hrest := hs.words
    rw [Expr.wordsOfAll] at hrest
    simp [Expr.wordsOfAll, commas, h.words, hcomma, hrest]

end

mutual

theorem Stmt.Spelled.words : ∀ {ts : List Token} {s : Stmt}, s.Spelled ts → ts.map Token.word = s.words
  | _, _, .expr h hend => by simp [Stmt.words, h.words, hend]
  | _, _, .var h hname hend => by simp [Stmt.words, h, hname, hend]
  | _, _, .varInit h hname hsign hvalue hend => by
    simp [Stmt.words, h, hname, hsign, hvalue.words, hend]
  | _, _, .block hopen h hclose => by simp [Stmt.words, hopen, h.words, hclose]
  | _, _, .onlyThen h hopen hcondition hclose hthen _ => by
    simp [Stmt.words, Stmt.wordsOfElse, h, hopen, hcondition.words, hclose, hthen.words]
  | _, _, .thenElse h hopen hcondition hclose hthen hoppure helse _ => by
    simp [Stmt.words, Stmt.wordsOfElse, h, hopen, hcondition.words, hclose, hthen.words, hoppure,
      helse.words]
  | _, _, .loop h hopen hcondition hclose hbody _ => by
    simp [Stmt.words, h, hopen, hcondition.words, hclose, hbody.words]
  | _, _, .function h hname hopen hparams hclose hbrace hbody hend => by
    simp [Stmt.words, h, hname, hopen, hparams, hclose, hbrace, hbody.words, hend]
  | _, _, .ret h hend => by simp [Stmt.words, h, hend]
  | _, _, .retValue h hvalue hend => by simp [Stmt.words, h, hvalue.words, hend]

theorem Stmt.SpelledAll.words :
    ∀ {ts : List Token} {ss : List Stmt}, Stmt.SpelledAll ts ss → ts.map Token.word = Stmt.wordsOfAll ss
  | _, _, .nil => rfl
  | _, _, .cons h hs => by simp [Stmt.wordsOfAll, h.words, hs.words]

end

theorem Expr.Spelled.length_pos {ts : List Token} {e : Expr} (h : e.Spelled ts) : 0 < ts.length := by
  obtain ⟨w, ws, hwords, -⟩ := e.words_eq_cons
  rw [← List.length_map (f := Token.word), h.words, hwords]
  exact Nat.succ_pos _

private theorem Stmt.Spelled.length_pos {ts : List Token} {s : Stmt} (h : s.Spelled ts) :
    0 < ts.length := by
  obtain ⟨w, ws, hwords, -⟩ := s.words_eq_cons
  rw [← List.length_map (f := Token.word), h.words, hwords]
  exact Nat.succ_pos _

theorem Stmt.Spelled.exists_getLast {ts : List Token} {s : Stmt} (h : s.Spelled ts) :
    ∃ last, ts.getLast? = some last := by
  cases hlast : ts.getLast? with
  | none =>
    obtain rfl := List.getLast?_eq_none_iff.1 hlast
    exact absurd h.length_pos (Nat.lt_irrefl 0)
  | some last => exact ⟨last, rfl⟩

mutual

@[simp] theorem Expr.words_erase : ∀ e : Expr, e.erase.words = e.words
  | .literal _ _ | .name _ _ | .questo _ | .super _ _ => by simp [Expr.erase, Expr.words]
  | .group inner _ => by simp [Expr.erase, Expr.words, inner.words_erase]
  | .unary _ operand _ => by simp [Expr.erase, Expr.words, operand.words_erase]
  | .binary _ left right _ => by
    simp [Expr.erase, Expr.words, left.words_erase, right.words_erase]
  | .logical _ left right _ => by
    simp [Expr.erase, Expr.words, left.words_erase, right.words_erase]
  | .assign _ value _ => by simp [Expr.erase, Expr.words, value.words_erase]
  | .call callee arguments _ => by
    simp [Expr.erase, Expr.words, callee.words_erase, Expr.wordsOfAll_eraseAll arguments]
  | .get object _ _ => by simp [Expr.erase, Expr.words, object.words_erase]
  | .set object _ value _ => by
    simp [Expr.erase, Expr.words, object.words_erase, value.words_erase]

theorem Expr.wordsOfAll_eraseAll :
    ∀ es : List Expr, Expr.wordsOfAll (Expr.eraseAll es) = Expr.wordsOfAll es
  | [] => rfl
  | e :: es => by
    simp [Expr.eraseAll, Expr.wordsOfAll, e.words_erase, Expr.wordsOfAll_eraseAll es]

end

private theorem Expr.words_eq_of_erase {e e' : Expr} (h : e'.erase = e.erase) : e'.words = e.words := by
  rw [← e'.words_erase, h, e.words_erase]

private theorem Expr.Spelled.length_eq {ts ts' : List Token} {e e' : Expr} (h : e.Spelled ts)
    (h' : e'.Spelled ts') (he : e'.erase = e.erase) : ts.length = ts'.length := by
  have hlength := congrArg List.length (Expr.words_eq_of_erase he)
  rw [← h.words, ← h'.words, List.length_map, List.length_map] at hlength
  exact hlength.symm

mutual

private theorem Expr.Spelled.unique : ∀ {ts ts' : List Token} {e e' : Expr}, e.Spelled ts →
    e'.Spelled ts' →
    ts = ts' → e'.erase = e.erase → e' = e
  | _, _, _, _, .literal _, h', hts, he => by
    cases h' with
    | literal _ => simp_all [Expr.erase]
    | _ => simp [Expr.erase] at he
  | _, _, _, _, .name _, h', hts, he => by
    cases h' with
    | name _ => simp_all [Expr.erase]
    | _ => simp [Expr.erase] at he
  | _, _, _, _, .questo _, h', hts, he => by
    cases h' with
    | questo _ => simp_all [Expr.erase]
    | _ => simp [Expr.erase] at he
  | _, _, _, _, .super _ _ _, h', hts, he => by
    cases h' with
    | super _ _ _ => simp_all [Expr.erase]
    | _ => simp [Expr.erase] at he
  | _, _, _, _, .group _ h _, h', hts, he => by
    cases h' with
    | group _ h' _ =>
      obtain ⟨hbegin, hlast⟩ := List.append_inj' hts rfl
      obtain ⟨rfl, hinner⟩ := List.cons.inj hbegin
      obtain rfl := List.singleton_inj.1 hlast
      rw [h.unique h' hinner (by simpa [Expr.erase] using he)]
    | _ => simp [Expr.erase] at he
  | _, _, _, _, .unary _ h, h', hts, he => by
    cases h' with
    | unary _ h' =>
      obtain ⟨rfl, hoperand⟩ := List.cons.inj hts
      obtain ⟨rfl, heo⟩ : _ ∧ _ := by simpa [Expr.erase] using he
      rw [h.unique h' hoperand heo]
    | _ => simp [Expr.erase] at he
  | _, _, _, _, .binary hleft _ hright, h', hts, he => by
    cases h' with
    | binary hleft' _ hright' =>
      obtain ⟨rfl, hel, her⟩ : _ ∧ _ ∧ _ := by simpa [Expr.erase] using he
      obtain ⟨hbegin, hus⟩ := List.append_inj hts (hleft.length_eq hleft' hel)
      rw [hleft.unique hleft' hbegin hel, hright.unique hright' (List.cons.inj hus).2 her]
    | _ => simp [Expr.erase] at he
  | _, _, _, _, .logical hleft _ hright, h', hts, he => by
    cases h' with
    | logical hleft' _ hright' =>
      obtain ⟨rfl, hel, her⟩ : _ ∧ _ ∧ _ := by simpa [Expr.erase] using he
      obtain ⟨hbegin, hus⟩ := List.append_inj hts (hleft.length_eq hleft' hel)
      rw [hleft.unique hleft' hbegin hel, hright.unique hright' (List.cons.inj hus).2 her]
    | _ => simp [Expr.erase] at he
  | _, _, _, _, .assign _ _ h, h', hts, he => by
    cases h' with
    | assign _ _ h' =>
      obtain ⟨rfl, hrest⟩ := List.cons.inj hts
      obtain ⟨rfl, hev⟩ : _ ∧ _ := by simpa [Expr.erase] using he
      rw [h.unique h' (List.cons.inj hrest).2 hev]
    | _ => simp [Expr.erase] at he
  | _, _, _, _, .call hcallee _ harguments _, h', hts, he => by
    cases h' with
    | call hcallee' _ harguments' _ =>
      obtain ⟨hec, hea⟩ : _ ∧ _ := by simpa [Expr.erase] using he
      obtain ⟨hbegin, hrest⟩ := List.append_inj hts (hcallee.length_eq hcallee' hec)
      obtain ⟨hus, hlast⟩ := List.append_inj' (List.cons.inj hrest).2 rfl
      obtain rfl := List.singleton_inj.1 hlast
      rw [hcallee.unique hcallee' hbegin hec, harguments.unique harguments' hus hea]
    | _ => simp [Expr.erase] at he
  | _, _, _, _, .get h _ _, h', hts, he => by
    cases h' with
    | get h' _ _ =>
      obtain ⟨heo, rfl⟩ : _ ∧ _ := by simpa [Expr.erase] using he
      obtain ⟨hbegin, hend⟩ := List.append_inj hts (h.length_eq h' heo)
      obtain rfl := List.singleton_inj.1 (List.cons.inj hend).2
      rw [h.unique h' hbegin heo]
    | _ => simp [Expr.erase] at he
  | _, _, _, _, .set hobject _ _ _ hvalue, h', hts, he => by
    cases h' with
    | set hobject' _ _ _ hvalue' =>
      obtain ⟨heo, rfl, hev⟩ : _ ∧ _ ∧ _ := by simpa [Expr.erase] using he
      obtain ⟨hbegin, hus⟩ := List.append_inj hts (hobject.length_eq hobject' heo)
      simp only [List.cons.injEq] at hus
      rw [hobject.unique hobject' hbegin heo, hvalue.unique hvalue' hus.2.2.2 hev]
    | _ => simp [Expr.erase] at he

theorem Expr.SpelledAll.unique : ∀ {ts ts' : List Token} {es es' : List Expr},
    Expr.SpelledAll ts es → Expr.SpelledAll ts' es' → ts = ts' →
      Expr.eraseAll es' = Expr.eraseAll es → es' = es
  | _, _, _, _, .nil, h', _, he => by
    cases h' with
    | nil => rfl
    | _ => simp [Expr.eraseAll] at he
  | _, _, _, _, .one h, h', hts, he => by
    cases h' with
    | one h' => rw [h.unique h' hts (by simpa [Expr.eraseAll] using he)]
    | _ => simp [Expr.eraseAll] at he
  | _, _, _, _, .cons h _ hs, h', hts, he => by
    cases h' with
    | cons h' _ hs' =>
      obtain ⟨hefirst, herest⟩ := List.cons.inj (by simpa only [Expr.eraseAll] using he)
      obtain ⟨hbegin, hus⟩ := List.append_inj hts (h.length_eq h' hefirst)
      rw [h.unique h' hbegin hefirst, hs.unique hs' (List.cons.inj hus).2 herest]
    | _ => simp [Expr.eraseAll] at he

end

mutual

@[simp] theorem Stmt.words_erase : ∀ s : Stmt, s.erase.words = s.words
  | .expr value _ => by simp [Stmt.erase, Stmt.words]
  | .var _ initial _ => by cases initial <;> simp [Stmt.erase, Stmt.words]
  | .block body _ => by simp [Stmt.erase, Stmt.words, Stmt.wordsOfAll_eraseAll body]
  | .cond condition thenBranch elseBranch _ => by
    simp [Stmt.erase, Stmt.words, thenBranch.words_erase, Stmt.wordsOfElse_eraseElse elseBranch]
  | .loop condition body _ => by simp [Stmt.erase, Stmt.words, body.words_erase]
  | .function _ _ body _ => by simp [Stmt.erase, Stmt.words, Stmt.wordsOfAll_eraseAll body]
  | .ret value _ => by cases value <;> simp [Stmt.erase, Stmt.words]

theorem Stmt.wordsOfAll_eraseAll :
    ∀ ss : List Stmt, Stmt.wordsOfAll (Stmt.eraseAll ss) = Stmt.wordsOfAll ss
  | [] => rfl
  | s :: ss => by simp [Stmt.eraseAll, Stmt.wordsOfAll, s.words_erase, Stmt.wordsOfAll_eraseAll ss]

theorem Stmt.wordsOfElse_eraseElse :
    ∀ s : Option Stmt, Stmt.wordsOfElse (Stmt.eraseElse s) = Stmt.wordsOfElse s
  | none => rfl
  | some s => by simp [Stmt.eraseElse, Stmt.wordsOfElse, s.words_erase]

end

private theorem Stmt.Spelled.length_eq {ts ts' : List Token} {s s' : Stmt} (h : s.Spelled ts)
    (h' : s'.Spelled ts') (hs : s'.erase = s.erase) : ts.length = ts'.length := by
  have hlength := congrArg (fun s => s.words.length) hs
  simp only [Stmt.words_erase] at hlength
  rw [← h.words, ← h'.words, List.length_map, List.length_map] at hlength
  exact hlength.symm

mutual

theorem Stmt.Spelled.unique : ∀ {ts ts' : List Token} {s s' : Stmt}, s.Spelled ts → s'.Spelled ts' →
    ts = ts' → s'.erase = s.erase → s' = s
  | _, _, _, _, .expr h _, h', hts, he => by
    cases h' with
    | expr h' _ =>
      obtain ⟨hvalue, hlast⟩ := List.append_inj' hts rfl
      obtain rfl := List.singleton_inj.1 hlast
      rw [h.unique h' hvalue (by simpa [Stmt.erase] using he)]
    | _ => simp [Stmt.erase] at he
  | _, _, _, _, .var _ _ _, h', hts, he => by
    cases h' with
    | var _ _ _ => simp_all [Stmt.erase]
    | _ => simp [Stmt.erase] at he
  | _, _, _, _, .varInit _ _ _ h _, h', hts, he => by
    cases h' with
    | varInit _ _ _ h' _ =>
      obtain ⟨rfl, hev⟩ : _ ∧ _ := by simpa [Stmt.erase] using he
      obtain ⟨rfl, rfl, rfl, hrest⟩ : _ ∧ _ ∧ _ ∧ _ := by simpa only [List.cons.injEq] using hts
      obtain ⟨hvalue, hlast⟩ := List.append_inj' hrest rfl
      obtain rfl := List.singleton_inj.1 hlast
      rw [h.unique h' hvalue hev]
    | _ => simp [Stmt.erase] at he
  | _, _, _, _, .block _ h _, h', hts, he => by
    cases h' with
    | block _ h' _ =>
      obtain ⟨rfl, hrest⟩ := List.cons.inj hts
      obtain ⟨hbody, hlast⟩ := List.append_inj' hrest rfl
      obtain rfl := List.singleton_inj.1 hlast
      rw [h.unique h' hbody (by simpa [Stmt.erase] using he)]
    | _ => simp [Stmt.erase] at he
  | _, _, _, _, .onlyThen _ _ hcondition _ hthen hlast, h', hts, he => by
    cases h' with
    | onlyThen _ _ hcondition' _ hthen' hlast' =>
      obtain ⟨hec, het⟩ : _ ∧ _ := by simpa [Stmt.erase, Stmt.eraseElse] using he
      obtain ⟨rfl, rfl, hrest⟩ : _ ∧ _ ∧ _ := by simpa only [List.cons.injEq] using hts
      obtain ⟨hts', hus⟩ := List.append_inj hrest (hcondition.length_eq hcondition' hec)
      obtain ⟨-, rfl⟩ := List.cons.inj hus
      obtain rfl := Option.some.inj (hlast.symm.trans hlast')
      rw [hcondition.unique hcondition' hts' hec, hthen.unique hthen' rfl het]
    | _ => simp [Stmt.erase, Stmt.eraseElse] at he
  | _, _, _, _, .thenElse _ _ hcondition _ hthen _ helse hlast, h', hts, he => by
    cases h' with
    | thenElse _ _ hcondition' _ hthen' _ helse' hlast' =>
      obtain ⟨hec, het, hee⟩ : _ ∧ _ ∧ _ := by simpa [Stmt.erase, Stmt.eraseElse] using he
      obtain ⟨rfl, rfl, hrest⟩ : _ ∧ _ ∧ _ := by simpa only [List.cons.injEq] using hts
      obtain ⟨hts', hus⟩ := List.append_inj hrest (hcondition.length_eq hcondition' hec)
      obtain ⟨hus', hvs⟩ := List.append_inj (List.cons.inj hus).2 (hthen.length_eq hthen' het)
      obtain ⟨-, rfl⟩ := List.cons.inj hvs
      obtain rfl := Option.some.inj (hlast.symm.trans hlast')
      rw [hcondition.unique hcondition' hts' hec, hthen.unique hthen' hus' het,
        helse.unique helse' rfl hee]
    | _ => simp [Stmt.erase, Stmt.eraseElse] at he
  | _, _, _, _, .loop _ _ hcondition _ hbody hlast, h', hts, he => by
    cases h' with
    | loop _ _ hcondition' _ hbody' hlast' =>
      obtain ⟨hec, heb⟩ : _ ∧ _ := by simpa [Stmt.erase] using he
      obtain ⟨rfl, rfl, hrest⟩ : _ ∧ _ ∧ _ := by simpa only [List.cons.injEq] using hts
      obtain ⟨hts', hus⟩ := List.append_inj hrest (hcondition.length_eq hcondition' hec)
      obtain ⟨-, rfl⟩ := List.cons.inj hus
      obtain rfl := Option.some.inj (hlast.symm.trans hlast')
      rw [hcondition.unique hcondition' hts' hec, hbody.unique hbody' rfl heb]
    | _ => simp [Stmt.erase] at he
  | _, _, _, _, .function _ _ _ hparams _ _ hbody _, h', hts, he => by
    cases h' with
    | function _ _ _ hparams' _ _ hbody' _ =>
      obtain ⟨rfl, rfl, heb⟩ : _ ∧ _ ∧ _ := by simpa [Stmt.erase] using he
      have hlength := congrArg List.length (hparams.trans hparams'.symm)
      rw [List.length_map, List.length_map] at hlength
      obtain ⟨rfl, rfl, rfl, hrest⟩ : _ ∧ _ ∧ _ ∧ _ := by simpa only [List.cons.injEq] using hts
      obtain ⟨-, hrest'⟩ := List.append_inj hrest hlength
      obtain ⟨-, -, hend⟩ : _ ∧ _ ∧ _ := by simpa only [List.cons.injEq] using hrest'
      obtain ⟨hus, hlast⟩ := List.append_inj' hend rfl
      obtain rfl := List.singleton_inj.1 hlast
      rw [hbody.unique hbody' hus heb]
    | _ => simp [Stmt.erase] at he
  | _, _, _, _, .ret _ _, h', hts, he => by
    cases h' with
    | ret _ _ => simp_all
    | _ => simp [Stmt.erase] at he
  | _, _, _, _, .retValue _ h _, h', hts, he => by
    cases h' with
    | retValue _ h' _ =>
      obtain ⟨rfl, hrest⟩ := List.cons.inj hts
      obtain ⟨hvalue, hlast⟩ := List.append_inj' hrest rfl
      obtain rfl := List.singleton_inj.1 hlast
      rw [h.unique h' hvalue (by simpa [Stmt.erase] using he)]
    | _ => simp [Stmt.erase] at he

theorem Stmt.SpelledAll.unique : ∀ {ts ts' : List Token} {ss ss' : List Stmt},
    Stmt.SpelledAll ts ss → Stmt.SpelledAll ts' ss' → ts = ts' →
      Stmt.eraseAll ss' = Stmt.eraseAll ss → ss' = ss
  | _, _, _, _, .nil, h', _, he => by
    cases h' with
    | nil => rfl
    | _ => simp [Stmt.eraseAll] at he
  | _, _, _, _, .cons h hs, h', hts, he => by
    cases h' with
    | cons h' hs' =>
      obtain ⟨hefirst, herest⟩ := List.cons.inj (by simpa only [Stmt.eraseAll] using he)
      obtain ⟨hbegin, hus⟩ := List.append_inj hts (h.length_eq h' hefirst)
      rw [h.unique h' hbegin hefirst, hs.unique hs' hus herest]
    | _ => simp [Stmt.eraseAll] at he

end

end Copione
