import Copione.Proofs.TrackedParser
/-!
# Statements follow what is expected

Behind a declaration that cannot be read the errors only grow, so nothing is said of what is found there.
-/
namespace Copione
namespace Parser

variable {may : Prop} {xs ys : List Expected} {p q : Parser} {e : CompileError} {α : Type} {x : Parse α}
  {n fuel count : Nat} {inside : Bool}

section

variable {declaration : Parse Stmt}

private theorem recovering_tracksAt (h : TracksAt may declaration xs ys p) :
    TracksAt may (recovering declaration) xs ys p := by
  unfold TracksAt at h
  rw [TracksAt, recovering]
  generalize declaration p = result at h
  cases h with
  | ok hpassed hleads => exact .ok hpassed hleads
  | @error e q hq h =>
    refine .found ?_ h
    simp [final, synchronize_errors, hq]
  | found hfound h =>
    refine .found ?_ h
    cases result with
    | ok stmt q => exact hfound
    | error e' q =>
      simp only [final, synchronize_errors, Array.toList_push]
      exact hfound.trans (List.prefix_append _ _)

variable {x : Expected} {stop : Parser → Bool}

private theorem recovering_tracksAt_cons
    (hdeclaration : TracksAt may declaration [.declaration inside] [] p) (hx : x.optional = false)
    (hgoes : x.behind? p.current.word =
      (Expected.behindDeclaration? inside p.current.word).map (· ++ [x])) :
    TracksAt may (recovering declaration) [x] [x] p :=
  ((recovering_tracksAt hdeclaration).frame [x]).congr fun _ =>
    Expected.read_unfold (y := .declaration inside) (by simp [hx]) rfl hgoes

private theorem passes_of_recovering {stmt : Option Stmt}
    (hdeclaration : TracksAt may declaration [.declaration inside] [] p)
    (hrun : recovering declaration p = .ok stmt q) (herrors : q.errors = p.errors) :
    ∃ w ws, Passes p (w :: ws) q := by
  have htracks := recovering_tracksAt hdeclaration
  rw [TracksAt, hrun] at htracks
  cases htracks with
  | @ok _ _ ws hpassed hleads =>
    obtain ⟨w, ws, rfl⟩ := List.exists_cons_of_ne_nil (hleads.ne_nil rfl)
    exact ⟨w, ws, hpassed⟩
  | found hfound =>
    have hlength := hfound.length_le
    rw [final, herrors, List.length_append, List.length_singleton] at hlength
    omega

section

variable (hdeclaration : Tracks may n inside declaration [.declaration inside] [])
  (hx : x.optional = false) (hgoes : ∀ p, stop p = false → x.behind? p.current.word =
    (Expected.behindDeclaration? inside p.current.word).map (· ++ [x]))
include hdeclaration

private theorem declarations_stop (hp : p.rest.length ≤ n) (hcount : p.rest.length < count)
    (hinside : decide (0 < p.functionDepth) = inside) {stmts : List Stmt}
    (hrun : declarations stop declaration count p = .ok stmts q) (herrors : q.errors = p.errors) :
    stop q = true := by
  induction count generalizing p stmts with
  | zero => exact absurd hcount (Nat.not_lt_zero _)
  | succ count ih =>
    rw [declarations, Run.bind_of_ok Run.get_apply] at hrun
    by_cases hstop : stop p
    · rw [if_pos hstop] at hrun
      obtain ⟨-, rfl⟩ := EStateM.Result.ok.inj hrun
      exact hstop
    · rw [if_neg hstop] at hrun
      obtain ⟨stmt, r, hstmt, hrun⟩ := Run.of_bind_ok hrun
      obtain ⟨more, r', hmore, hrun⟩ := Run.of_bind_ok hrun
      obtain ⟨-, rfl⟩ := EStateM.Result.ok.inj hrun
      -- Errors only grow, so there is none behind the first declaration either.
      have hto := (grows_recovering hdeclaration.grows).prefix_of_ok hstmt
      have hfrom := (grows_declarations hdeclaration.grows stop count).prefix_of_ok hmore
      rw [herrors] at hfrom
      have hr : r.errors = p.errors := Array.ext' (hfrom.eq_of_length_le hto.length_le)
      obtain ⟨w, ws, hpassed⟩ := passes_of_recovering (hdeclaration.tracksAt hp hinside) hstmt hr
      have hlength := hpassed.length_lt
      exact ih (by omega) (by omega) (by rwa [hpassed.functionDepth_eq]) hmore (herrors.trans hr.symm)

include hx hgoes

private theorem declarations_tracksAt (hp : p.rest.length ≤ n) (hcount : p.rest.length < count)
    (hinside : decide (0 < p.functionDepth) = inside) :
    TracksAt may (declarations stop declaration count) [x] [x] p := by
  induction count generalizing p with
  | zero => exact absurd hcount (Nat.not_lt_zero _)
  | succ count ih =>
    rw [declarations]
    refine .of_eq (Run.bind_of_ok Run.get_apply) ?_
    have hgrows := grows_declarations hdeclaration.grows stop count
    by_cases hstop : stop p
    · rw [if_pos hstop]
      exact tracksAt_pure [] [x] p
    · rw [if_neg hstop]
      have hfirst := hdeclaration.tracksAt hp hinside
      refine (recovering_tracksAt_cons hfirst hx (hgoes p (by simpa using hstop))).bind
        (fun stmt q ws hrun hpassed => ?_) fun stmt => hgrows.bind fun more => grows_pure _
      obtain ⟨w, ws', hpassed'⟩ := passes_of_recovering hfirst hrun hpassed.errors_eq
      have hlength := hpassed'.length_lt
      exact (ih (by omega) (by omega) (by rwa [hpassed.functionDepth_eq])).bind
        (fun more r _ _ _ => tracksAt_pure _ [x] r) fun more => grows_pure _

end

private theorem Stuck.closed (h : Stuck may xs { p with blockDepth := p.blockDepth + 1 } e) :
    Stuck may xs p e := by
  rcases h with h | ⟨ws, q, hpassed, hfault, hleads⟩
  · exact .inl h
  · exact .inr ⟨ws, _, hpassed.closed, hfault, hleads⟩

private theorem Tracks.inFunction {x : Parse α} (hx : Tracks may n true x xs ys) :
    Tracks may n inside (inFunction x) xs ys := by
  refine ⟨grows_inFunction hx.grows, fun p hp _ => ?_⟩
  have hbody := hx.tracksAt (p := { p with functionDepth := p.functionDepth + 1 }) hp (by simp)
  have hleft {e : CompileError}
      (h : Stuck may xs { p with functionDepth := p.functionDepth + 1 } e) : Stuck may xs p e := by
    rcases h with h | ⟨ws, q, hpassed, hfault, hleads⟩
    · exact .inl h
    · exact .inr ⟨ws, _, hpassed.left, hfault, hleads⟩
  unfold TracksAt at hbody ⊢
  rw [Parser.inFunction]
  generalize x _ = result at hbody
  cases hbody with
  | ok hpassed hleads => exact .ok hpassed.left hleads
  | error hq h => exact .error hq (hleft h)
  | found hfound h =>
    refine .found ?_ (hleft h)
    cases result <;> exact hfound

private theorem closing_tracksAt (hstop : (p.current.kind == .rightBrace || p.isAtEnd) = true)
    (body : List Stmt) : TracksAt may (do
      discard (consume .rightBrace "'\x7d' after block")
      return body) [.body inside] [] p := by
  by_cases hcurrent : p.current.kind = .rightBrace
  · have hbehind : (Expected.body inside).behind? p.current.word = some [] :=
      if_pos (by rwa [Token.word_kind])
    exact .take (tracksAt_pure body [] p.next) hbehind (by rw [hcurrent]; decide)
      (Run.bind_of_ok (Run.map_of_ok (consume_of_mark _ hcurrent rfl)))
  · have heof : p.current.kind = .eof := by simpa [hcurrent, isAtEnd] using hstop
    have hnone : (Expected.body inside).behind? p.current.word = none := by
      rw [Expected.behind?, Token.word_kind, if_neg hcurrent,
        Expected.behindDeclaration?_eof inside (by rwa [Token.word_kind])]
      rfl
    refine .of_eq (Run.bind_of_error (Run.map_of_error ?_))
      (tracksAt_refuse (.expectedToken "'\x7d' after block" p.current) rfl hnone [] [])
    rw [consume_apply, if_neg hcurrent]

private theorem blockBody_tracks
    (hdeclaration : Tracks may n inside declaration [.declaration inside] [])
    (hfuel : n < fuel) : Tracks may n inside (blockBody fuel declaration) [.body inside] [] := by
  refine ⟨grows_blockBody hdeclaration.grows fuel, fun p hp hinside => ?_⟩
  have hgoes : ∀ q : Parser, (q.current.kind == .rightBrace || q.isAtEnd) = false →
      (Expected.body inside).behind? q.current.word =
        (Expected.behindDeclaration? inside q.current.word).map (· ++ [.body inside]) := by
    intro q hq
    have hkind : q.current.kind ≠ .rightBrace := by simpa using (Bool.or_eq_false_iff.mp hq).1
    rw [Expected.behind?, Token.word_kind, if_neg hkind]
  have hcount : p.rest.length < fuel := by omega
  have hbody := declarations_tracksAt (p := { p with blockDepth := p.blockDepth + 1 }) hdeclaration
    (x := .body inside) rfl hgoes hp hcount hinside
  unfold TracksAt at hbody
  generalize hrun : declarations _ declaration fuel _ = result at hbody
  rw [TracksAt, blockBody, Run.bind_of_ok (Run.modify_apply _)]
  cases hbody with
  | @ok _ q _ hpassed hleads =>
    have hstop := declarations_stop (p := { p with blockDepth := p.blockDepth + 1 }) hdeclaration hp
      hcount hinside hrun hpassed.errors_eq
    rw [Run.bind_of_ok hrun, Run.bind_of_ok (Run.modify_apply _)]
    exact Tracked.behind (closing_tracksAt (p := { q with blockDepth := q.blockDepth - 1 }) hstop _)
      hpassed.closed hleads
  | error hq h =>
    rw [Run.bind_of_error hrun]
    exact .error hq h.closed
  | found hfound h =>
    have hclose : Grows (modify fun p => { p with blockDepth := p.blockDepth - 1 }) :=
      grows_modify fun _ => rfl
    exact .found (hfound.trans (hrun ▸ prefix_final_bind (fun _ => hclose.bind fun _ =>
      (grows_consume _ _).discard.bind fun _ => grows_pure _) _)) h.closed

end

section

variable (hp : p.rest.length ≤ n)
  (hinside : decide (0 < p.functionDepth) = inside)
include hp hinside

private theorem keyword_tracksAt {kind : TokenKind} {y : Expected} {f : Token → Parse α}
    (hf : ∀ m < n, ∀ t, Tracks may m inside (f t) ys []) (hcurrent : p.current.kind = kind)
    (hkind : kind.isMark) (hbehind : ∀ w : Word, w.kind = kind → y.behind? w = some ys) :
    TracksAt may (advance >>= f) [y] [] p := by
  refine .pass (fun m hm => ?_) hp hinside (hbehind _ (by rwa [Token.word_kind]))
    (hcurrent ▸ ne_eof_of_isMark hkind) (Run.bind_of_ok (advance_of_mark hcurrent hkind))
  rw [List.append_nil]
  exact hf m (by omega) _

private theorem varDeclaration_tracksAt {expression : Parse Expr}
    (hexpression : Tracks may n inside expression [.expr] []) (hcurrent : p.current.kind = .variabile) :
    TracksAt may (varDeclaration expression) [.declaration inside] [] p := by
  refine keyword_tracksAt hp hinside (fun m hm start => ?_) hcurrent rfl fun w hw => by
    rw [Expected.behind?, Expected.behindDeclaration?, hw]
  have hend (k : Nat) (name : String) (initial : Option Expr) : Tracks may k inside (do
      discard (consume .semicolon "';' after variable declaration")
      return Stmt.var name initial (← spanFrom start.span)) [.mark .semicolon] [] :=
    (tracks_consume rfl _).bind fun _ => (tracks_spanFrom _).bind fun _ => tracks_pure _
  have hvalue (k : Nat) (hk : k ≤ n) : Tracks may k inside (some <$> expression)
      [.expr, .mark .semicolon] [.mark .semicolon] :=
    ((hexpression.mono hk).map some).frame [.mark .semicolon]
  refine (tracks_expectName _).bind fun name => Tracks.accept rfl rfl (fun w hw => if_pos hw)
    (fun w hw => if_neg hw) ?_ (fun k hk => ?_) ?_
  · exact (hvalue 0 (Nat.zero_le n)).grows.bind fun value => (hend 0 name value).grows
  · exact (hvalue k (by omega)).bind fun value => hend k name value
  · exact (tracks_pure none).bind fun value => hend m name value

private theorem functionDeclaration_tracksAt {declaration : Parse Stmt}
    (hdeclaration : ∀ m < n, Tracks may m true declaration [.declaration true] [])
    (hfuel : n ≤ fuel) (hcurrent : p.current.kind = .funzione) :
    TracksAt may (functionDeclaration fuel declaration) [.declaration inside] [] p := by
  refine keyword_tracksAt hp hinside (fun m hm start => ?_) hcurrent rfl fun w hw => by
    rw [Expected.behind?, Expected.behindDeclaration?, hw]
  have hparams : Tracks may m inside (listed fuel (expectName "parameter name"))
      [.list .name, .mark .rightParen] [.mark .rightParen] :=
    listed_tracks rfl (fun w hw => if_neg (by rw [hw]; decide)) (tracks_expectName _) (by omega)
  have hbody : Tracks may m inside (inFunction (blockBody fuel declaration)) [.body true] [] :=
    (blockBody_tracks (hdeclaration m hm) (by omega)).inFunction
  exact (tracks_expectName _).bind fun name => (tracks_consume rfl _).bind fun _ =>
    (hparams.frame [.mark .leftBrace, .body true]).bind fun params => (tracks_consume rfl _).bind fun _ =>
      (tracks_consume rfl _).bind fun _ => hbody.bind fun body => (tracks_spanFrom _).bind fun span =>
        tracks_pure _

private theorem ifStatement_tracksAt {expression : Parse Expr} {statement : Parse Stmt}
    (hexpression : Tracks may n inside expression [.expr] [])
    (hstatement : ∀ m < n, Tracks may m inside statement [.statement inside] [])
    (hcurrent : p.current.kind = .se) :
    TracksAt may (ifStatement expression statement) [.statement inside] [] p := by
  refine keyword_tracksAt hp hinside (fun m hm start => ?_) hcurrent rfl fun w hw => by
    rw [Expected.behind?, Expected.behindStatement?, hw]
  have hend (k : Nat) (condition : Expr) (thenBranch : Stmt) (elseBranch : Option Stmt) :
      Tracks may k inside (do
        return Stmt.cond condition thenBranch elseBranch (← spanFrom start.span)) [] [] :=
    (tracks_spanFrom _).bind fun _ => tracks_pure _
  refine (tracks_consume rfl _).bind fun _ =>
    ((hexpression.mono (Nat.le_of_lt hm)).frame
      [.mark .rightParen, .statement inside, .branch inside]).bind fun condition =>
    (tracks_consume rfl _).bind fun _ =>
    ((hstatement m hm).frame [.branch inside]).bind fun thenBranch =>
    Tracks.accept rfl rfl (fun w hw => if_pos hw) (fun w hw => if_neg hw) ?_ (fun k hk => ?_) ?_
  · exact ((hstatement m hm).map some).grows.bind fun branch => (hend 0 condition thenBranch branch).grows
  · exact ((hstatement k (by omega)).map some).bind fun branch => hend k condition thenBranch branch
  · exact (tracks_pure none).bind fun branch => hend m condition thenBranch branch

private theorem whileStatement_tracksAt {expression : Parse Expr} {statement : Parse Stmt}
    (hexpression : Tracks may n inside expression [.expr] [])
    (hstatement : ∀ m < n, Tracks may m inside statement [.statement inside] [])
    (hcurrent : p.current.kind = .mentre) :
    TracksAt may (whileStatement expression statement) [.statement inside] [] p := by
  refine keyword_tracksAt hp hinside (fun m hm start => ?_) hcurrent rfl fun w hw => by
    rw [Expected.behind?, Expected.behindStatement?, hw]
  have hend : Tracks may m inside (do
      let condition ← expression
      discard (consume .rightParen "')' after condition")
      let body ← statement
      return Stmt.loop condition body (← spanFrom start.span))
      [.expr, .mark .rightParen, .statement inside] [] :=
    ((hexpression.mono (Nat.le_of_lt hm)).frame [.mark .rightParen, .statement inside]).bind
      fun condition => (tracks_consume rfl _).bind fun _ => (hstatement m hm).bind fun body =>
        (tracks_spanFrom _).bind fun _ => tracks_pure _
  refine (tracks_consume rfl _).bind fun _ => ⟨?_, fun q hq hdepth => ?_⟩
  · refine (grows_check _).bind fun closed => ?_
    split
    · exact grows_get.bind fun _ => (grows_fail _).bind fun _ => hend.grows
    · exact hend.grows
  · refine .of_eq (Run.bind_of_ok (check_apply _ q)) ?_
    by_cases hparen : q.current.kind = .rightParen
    · rw [if_pos (by simpa using hparen)]
      refine .of_eq ((Run.bind_of_ok Run.get_apply).trans (Run.bind_of_error rfl))
        (tracksAt_refuse .missingWhileCondition rfl ?_ _ [])
      exact Expected.behindExpr?_eq_none (by rw [Token.word_kind, hparen]; rfl)
    · rw [if_neg (by simpa using hparen)]
      exact hend.tracksAt hq hdepth

private theorem returnStatement_tracksAt {expression : Parse Expr}
    (hexpression : Tracks may n inside expression [.expr] []) (hcurrent : p.current.kind = .ritorna) :
    TracksAt may (returnStatement expression) [.statement inside] [] p := by
  refine .of_eq (Run.bind_of_ok Run.get_apply) ?_
  by_cases hdepth : p.functionDepth = 0
  · have hbehind : (Expected.statement inside).behind? p.current.word = none := by
      rw [← hinside, hdepth, Expected.behind?, Expected.behindStatement?, Token.word_kind, hcurrent]
      rfl
    rw [if_pos (by simpa using hdepth)]
    exact .of_eq (Run.bind_of_error rfl) (tracksAt_refuse .returnOutsideFunction rfl hbehind [] [])
  · obtain rfl : inside = true := by rw [← hinside]; simpa using Nat.pos_of_ne_zero hdepth
    rw [if_neg (by simpa using hdepth)]
    refine keyword_tracksAt hp hinside (fun m hm start => ?_) hcurrent rfl fun w hw => by
      rw [Expected.behind?, Expected.behindStatement?, hw, if_pos rfl]
    have hend (value : Option Expr) : Tracks may m true (do
        discard (consume .semicolon "';' after return value")
        return Stmt.ret value (← spanFrom start.span)) [.mark .semicolon] [] :=
      (tracks_consume rfl _).bind fun _ => (tracks_spanFrom _).bind fun _ => tracks_pure _
    have hvalue := (((hexpression.mono (Nat.le_of_lt hm)).map some).frame [.mark .semicolon]).bind hend
    refine ⟨(grows_check _).bind fun closed => ?_, fun q hq hinside => ?_⟩
    · split
      · exact (hend none).grows
      · exact hvalue.grows
    refine .of_eq (Run.bind_of_ok (check_apply _ q)) ?_
    by_cases hsemicolon : q.current.kind = .semicolon
    · rw [if_pos (by simpa using hsemicolon)]
      refine ((hend none).tracksAt hq hinside).skip rfl (Expected.behindExpr?_eq_none ?_)
      rw [Token.word_kind, hsemicolon]
      rfl
    · rw [if_neg (by simpa using hsemicolon)]
      have hmark : (Expected.mark .semicolon).behind? q.current.word = none :=
        if_neg (by rwa [Token.word_kind])
      have hsame : Expected.returned.behind? q.current.word =
          (Expected.expr.behind? q.current.word).map (· ++ []) := by simp [Expected.behind?]
      exact (hvalue.tracksAt hq hinside).congr fun rest =>
        Expected.read_unfold (fun _ => Expected.read_refuse rfl hmark rest) rfl hsame

private theorem blockStatement_tracksAt {declaration : Parse Stmt}
    (hdeclaration : ∀ m < n, Tracks may m inside declaration [.declaration inside] [])
    (hfuel : n ≤ fuel) (hcurrent : p.current.kind = .leftBrace) :
    TracksAt may (blockStatement fuel declaration) [.statement inside] [] p := by
  refine keyword_tracksAt hp hinside (fun m hm start => ?_) hcurrent rfl fun w hw => by
    rw [Expected.behind?, Expected.behindStatement?, hw]
  exact (blockBody_tracks (hdeclaration m hm) (by omega)).bind fun body =>
    (tracks_spanFrom _).bind fun _ => tracks_pure _

omit hp hinside

private theorem expressionStatement_tracks {expression : Parse Expr}
    (hexpression : Tracks may n inside expression [.expr] []) :
    Tracks may n inside (expressionStatement expression) [.expr, .mark .semicolon] [] :=
  (hexpression.frame [.mark .semicolon]).bind fun _ => (tracks_consume rfl _).bind fun _ =>
    (tracks_spanFrom _).bind fun _ => tracks_pure _

end

section

variable {assign : Assigning} (hassign : assign.Sensible may)
include hassign

private theorem grows_declarationWith_statementWith (fuel : Nat) :
    Grows (declarationWith assign fuel) ∧ Grows (statementWith assign fuel) := by
  induction fuel with
  | zero => exact ⟨grows_failExpression, grows_failExpression⟩
  | succ fuel ih =>
    obtain ⟨hdeclaration, hstatement⟩ := ih
    have hexpression := grows_expressionWith hassign fuel
    constructor
    · rw [declarationWith]
      refine grows_peekKind.bind fun kind => ?_
      split
      · exact grows_varDeclaration hexpression
      · exact grows_functionDeclaration hdeclaration fuel
      · exact hstatement
    · rw [statementWith]
      refine grows_peekKind.bind fun kind => ?_
      split
      · exact grows_ifStatement hexpression hstatement
      · exact grows_whileStatement hexpression hstatement
      · exact grows_returnStatement hexpression
      · exact grows_advance.bind fun _ => (grows_blockBody hdeclaration fuel).bind fun _ =>
          (grows_spanFrom _).bind fun _ => grows_pure _
      · exact hexpression.bind fun _ => (grows_consume _ _).discard.bind fun _ =>
          (grows_spanFrom _).bind fun _ => grows_pure _

private theorem declarationWith_statementWith_track (fuel : Nat) :
    (∀ n inside, 2 * n + 4 ≤ fuel →
      Tracks may n inside (declarationWith assign fuel) [.declaration inside] []) ∧
    ∀ n inside, 2 * n + 3 ≤ fuel →
      Tracks may n inside (statementWith assign fuel) [.statement inside] [] := by
  induction fuel with
  | zero => exact ⟨fun n _ hn => absurd hn (by omega), fun n _ hn => absurd hn (by omega)⟩
  | succ fuel ih =>
    obtain ⟨hdeclaration, hstatement⟩ := ih
    have hgrows := grows_declarationWith_statementWith hassign (fuel + 1)
    constructor
    · refine fun n inside hn => ⟨hgrows.1, fun p hp hinside => ?_⟩
      have hexpression : Tracks may n inside (expressionWith assign fuel) [.expr] [] :=
        expressionWith_tracks hassign (by omega)
      rw [declarationWith]
      refine .of_eq (Run.bind_of_ok (peekKind_apply p)) ?_
      split
      · next hcurrent => exact varDeclaration_tracksAt hp hinside hexpression hcurrent
      · next hcurrent =>
        exact functionDeclaration_tracksAt hp hinside (fun m hm => hdeclaration m true (by omega))
          (by omega) hcurrent
      · next hvariabile hfunzione =>
        refine ((hstatement n inside (by omega)).tracksAt hp hinside).congr fun rest => ?_
        have hsame : (Expected.declaration inside).behind? p.current.word =
            ((Expected.statement inside).behind? p.current.word).map (· ++ []) := by
          simp [Expected.behind?, Expected.behindDeclaration?]
        exact Expected.read_unfold (by simp [Expected.optional]) rfl hsame
    · refine fun n inside hn => ⟨hgrows.2, fun p hp hinside => ?_⟩
      have hexpression : Tracks may n inside (expressionWith assign fuel) [.expr] [] :=
        expressionWith_tracks hassign (by omega)
      have hinner (m : Nat) (hm : m < n) := hstatement m inside (by omega)
      rw [statementWith]
      refine .of_eq (Run.bind_of_ok (peekKind_apply p)) ?_
      split
      · next hcurrent => exact ifStatement_tracksAt hp hinside hexpression hinner hcurrent
      · next hcurrent => exact whileStatement_tracksAt hp hinside hexpression hinner hcurrent
      · next hcurrent => exact returnStatement_tracksAt hp hinside hexpression hcurrent
      · next hcurrent =>
        exact blockStatement_tracksAt hp hinside (fun m hm => hdeclaration m inside (by omega))
          (by omega) hcurrent
      · next hse hmentre hritorna hbrace =>
        refine ((expressionStatement_tracks hexpression).tracksAt hp hinside).congr fun rest => ?_
        refine Expected.read_unfold (x := .statement inside) (y := .expr) (by simp [Expected.optional]) rfl ?_
        simp [Expected.behind?, Expected.behindStatement?]

private theorem declarationWith_tracks (hfuel : 2 * n + 4 ≤ fuel) :
    Tracks may n inside (declarationWith assign fuel) [.declaration inside] [] :=
  (declarationWith_statementWith_track hassign fuel).1 n inside hfuel

theorem programWith_tracksAt (tokens : List Token) :
    TracksAt may (programWith assign (fuelFor tokens.length)) [.program] [.program] (ofTokens tokens) := by
  have hdeclaration : Tracks may tokens.length false
      (declarationWith assign (fuelFor tokens.length)) [.declaration false] [] :=
    declarationWith_tracks hassign (by rw [fuelFor]; omega)
  refine declarations_tracksAt hdeclaration rfl (fun p hp => ?_) (Nat.le_refl _)
    (show tokens.length < fuelFor tokens.length by rw [fuelFor]; omega) rfl
  have hkind : p.current.kind ≠ .eof := by simpa [isAtEnd] using hp
  rw [Expected.behind?, Token.word_kind, if_neg hkind]

theorem isAtEnd_of_programWith {tokens : List Token} {stmts : List Stmt}
    (hrun : programWith assign (fuelFor tokens.length) (ofTokens tokens) = .ok stmts q)
    (herrors : q.errors = #[]) : q.isAtEnd = true := by
  have hdeclaration : Tracks may tokens.length false
      (declarationWith assign (fuelFor tokens.length)) [.declaration false] [] :=
    declarationWith_tracks hassign (by rw [fuelFor]; omega)
  exact declarations_stop hdeclaration (Nat.le_refl _)
    (show tokens.length < fuelFor tokens.length by rw [fuelFor]; omega) rfl hrun herrors

end

end Parser
end Copione
