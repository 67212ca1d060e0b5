import Mathlib.Algebra.Ring.Int.Defs
import Copione.Proofs.Recovery
/-!
# Balance

Well-formed expressions close the parentheses that they open, and well-formed statements those and the
braces.
-/
namespace Copione

structure Bracket where
  opening : TokenKind
  closing : TokenKind
  ne : opening ≠ closing

namespace Bracket

def parens : Bracket := ⟨.leftParen, .rightParen, by decide⟩

def braces : Bracket := ⟨.leftBrace, .rightBrace, by decide⟩

variable (b : Bracket) {ws ws' : List Word}

def weight (w : Word) : Int :=
  if w.kind = b.opening then 1 else if w.kind = b.closing then -1 else 0

def balance (ws : List Word) : Int := (ws.map b.weight).sum

@[simp] theorem balance_nil : b.balance [] = 0 := rfl

@[simp] theorem balance_cons (w : Word) (ws : List Word) :
    b.balance (w :: ws) = b.weight w + b.balance ws := by
  simp [balance]

@[simp] theorem balance_append (ws ws' : List Word) :
    b.balance (ws ++ ws') = b.balance ws + b.balance ws' := by
  simp [balance]

private theorem weight_opening : b.weight (.mark b.opening) = 1 := by
  simp [weight, Word.kind]

theorem weight_closing : b.weight (.mark b.closing) = -1 := by
  simp [weight, Word.kind, b.ne.symm]

private theorem balance_opening (ws : List Word) :
    b.balance (.mark b.opening :: ws) = 1 + b.balance ws := by
  rw [balance_cons, weight_opening]

private theorem balance_closing (ws : List Word) :
    b.balance (.mark b.closing :: ws) = -1 + b.balance ws := by
  rw [balance_cons, weight_closing]

/-- As much is closed as is opened, and nothing before it was opened. -/
structure Balanced (ws : List Word) : Prop where
  balance_eq : b.balance ws = 0
  nonneg : ∀ {u v : List Word}, ws = u ++ v → 0 ≤ b.balance u

variable {b}

private theorem Balanced.nil : b.Balanced [] := by
  refine ⟨rfl, ?_⟩
  intro u v h
  obtain ⟨rfl, -⟩ := List.append_eq_nil_iff.mp h.symm
  exact Int.le_refl 0

theorem Balanced.append (h : b.Balanced ws) (h' : b.Balanced ws') : b.Balanced (ws ++ ws') := by
  refine ⟨by rw [balance_append, h.balance_eq, h'.balance_eq]; rfl, ?_⟩
  intro u v huv
  rcases List.append_eq_append_iff.mp huv with ⟨w, rfl, hw⟩ | ⟨w, hw, -⟩
  · have hnonneg := h'.nonneg hw
    rw [balance_append, h.balance_eq]
    omega
  · exact h.nonneg hw

theorem Balanced.suffix_nonpos (h : b.Balanced ws) {u v : List Word} (huv : ws = u ++ v) :
    b.balance v ≤ 0 := by
  have hnonneg := h.nonneg huv
  have heq := h.balance_eq
  rw [huv, balance_append] at heq
  omega

theorem balanced_of_weight_eq_zero (h : ∀ w ∈ ws, b.weight w = 0) : b.Balanced ws := by
  have hzero {u : List Word} (hu : ∀ w ∈ u, b.weight w = 0) : b.balance u = 0 := by
    induction u with
    | nil => rfl
    | cons w u ih =>
      rw [balance_cons, hu w List.mem_cons_self, ih fun w hw => hu w (List.mem_cons_of_mem _ hw)]
      rfl
  refine ⟨hzero h, ?_⟩
  rintro u v rfl
  exact Int.le_of_eq (hzero fun w hw => h w (List.mem_append_left v hw)).symm

private theorem Balanced.wrap (h : b.Balanced ws) :
    b.Balanced (.mark b.opening :: (ws ++ [.mark b.closing])) := by
  constructor
  · rw [balance_opening, balance_append, h.balance_eq, balance_closing]
    rfl
  · intro u v huv
    cases u with
    | nil => exact Int.le_refl 0
    | cons w u =>
      obtain ⟨rfl, hinner⟩ := List.cons.inj huv
      rw [balance_opening]
      rcases List.append_eq_append_iff.mp hinner with ⟨w, rfl, hw⟩ | ⟨w, hw, -⟩
      · rw [balance_append, h.balance_eq]
        cases w with
        | nil => simp
        | cons w rest =>
          obtain ⟨rfl, hrest⟩ := List.cons.inj hw
          obtain ⟨rfl, -⟩ := List.append_eq_nil_iff.mp hrest.symm
          rw [balance_closing, balance_nil]
          omega
      · have hnonneg := h.nonneg hw
        omega

end Bracket

open Copione.Bracket

private theorem commas_balanced {b : Bracket} (hcomma : b.weight (.mark .comma) = 0)
    {items : List (List Word)}
    (h : ∀ item ∈ items, b.Balanced item) : b.Balanced (commas items) := by
  have hsign : b.Balanced [.mark .comma] := balanced_of_weight_eq_zero (by simpa using hcomma)
  exact commas_of_items .nil (fun _ _ hws hws' => hws.append (hsign.append hws')) h

private theorem weight_parens_kind {w : Word} (h : w.kind ≠ .leftParen) (h' : w.kind ≠ .rightParen) :
    parens.weight w = 0 := by
  simp [weight, parens, h, h']

theorem Expr.WellFormed.parens_balanced {e : Expr} (h : e.WellFormed) : parens.Balanced e.words := by
  have hword {w : Word} (h : w.kind ≠ .leftParen) (h' : w.kind ≠ .rightParen) : parens.Balanced [w] :=
    balanced_of_weight_eq_zero (by simpa using weight_parens_kind h h')
  induction h with
  | literal value span =>
    rw [words]
    apply hword
    · rcases value with _ | ⟨_ | _⟩ | _ | _ | _ <;> simp [Word.kind, Constant.kind]
    · rcases value with _ | ⟨_ | _⟩ | _ | _ | _ <;> simp [Word.kind, Constant.kind]
  | name n span =>
    rw [words]
    exact hword (by simp [Word.kind]) (by simp [Word.kind])
  | questo span =>
    rw [words]
    exact hword (by decide) (by decide)
  | super method span =>
    rw [words]
    apply balanced_of_weight_eq_zero
    simp [weight, parens, Word.kind]
  | group h span ih =>
    rw [words]
    exact ih.wrap
  | unary h hlevel op span ih =>
    rw [words]
    have hop : parens.Balanced [.mark op.kind] := by cases op <;> exact hword (by decide) (by decide)
    exact hop.append ih
  | @binary left right op hleft hright hleftLevel hrightLevel span ihleft ihright =>
    rw [words]
    have hop : parens.Balanced [.mark op.kind] := by cases op <;> exact hword (by decide) (by decide)
    exact ihleft.append (hop.append ihright)
  | @logical left right op hleft hright hleftLevel hrightLevel span ihleft ihright =>
    rw [words]
    have hop : parens.Balanced [.mark op.kind] := by cases op <;> exact hword (by decide) (by decide)
    exact ihleft.append (hop.append ihright)
  | assign h n span ih =>
    rw [words]
    have hsign : parens.Balanced [.name n, .mark .equal] :=
      balanced_of_weight_eq_zero (by simp [weight, parens, Word.kind])
    exact hsign.append ih
  | call hcallee hlevel harguments span ih iharguments =>
    rw [words, wordsOfAll_eq, List.append_assoc]
    have harguments := commas_balanced (b := parens) rfl (List.forall_mem_map.mpr iharguments)
    exact ih.append harguments.wrap
  | get h hlevel n span ih =>
    rw [words]
    exact ih.append (balanced_of_weight_eq_zero (by simp [weight, parens, Word.kind]))
  | set hobject hlevel hvalue n span ihobject ihvalue =>
    rw [words]
    have hsign : parens.Balanced [.mark .dot, .name n, .mark .equal] :=
      balanced_of_weight_eq_zero (by simp [weight, parens, Word.kind])
    exact ihobject.append (hsign.append ihvalue)

private theorem balanced_wordsOfAll {b : Bracket} {ss : List Stmt} (h : ∀ s ∈ ss, b.Balanced s.words) :
    b.Balanced (Stmt.wordsOfAll ss) := by
  induction ss with
  | nil => exact .nil
  | cons s ss ih =>
    rw [Stmt.wordsOfAll]
    exact (h s List.mem_cons_self).append (ih fun s hs => h s (List.mem_cons_of_mem _ hs))

private theorem headWords_parens_balanced {kind : TokenKind} (hkind : parens.weight (.mark kind) = 0)
    {condition : Expr} (h : condition.WellFormed) : parens.Balanced (headWords kind condition) := by
  have hfirst : parens.Balanced [.mark kind] := balanced_of_weight_eq_zero (by simpa using hkind)
  exact hfirst.append h.parens_balanced.wrap

private theorem functionWords_parens_balanced (name : String) (params : List String) :
    parens.Balanced (functionWords name params) := by
  have hfirst : parens.Balanced [.mark .funzione, .name name] :=
    balanced_of_weight_eq_zero (by simp [weight, parens, Word.kind])
  have hparams : parens.Balanced (commas (params.map fun p => [.name p])) :=
    commas_balanced rfl <| List.forall_mem_map.mpr fun _ _ =>
      balanced_of_weight_eq_zero (by simp [weight, parens, Word.kind])
  exact hfirst.append hparams.wrap

private theorem Stmt.WellFormed.parens_balanced {inside : Bool} {s : Stmt} (h : s.WellFormed inside) :
    parens.Balanced s.words := by
  have hmark (kind : TokenKind) (h : parens.weight (.mark kind) = 0) : parens.Balanced [.mark kind] :=
    balanced_of_weight_eq_zero (by simpa using h)
  have hbody {ss : List Stmt} (h : ∀ s ∈ ss, parens.Balanced s.words) :
      parens.Balanced (.mark .leftBrace :: (wordsOfAll ss ++ [.mark .rightBrace])) :=
    (hmark _ rfl).append ((balanced_wordsOfAll h).append (hmark _ rfl))
  induction h with
  | expr h span =>
    rw [words]
    exact h.parens_balanced.append (hmark _ rfl)
  | @var _ initial h name span =>
    have hfirst : parens.Balanced [.mark .variabile, .name name] :=
      balanced_of_weight_eq_zero (by simp [weight, parens, Word.kind])
    rw [words]
    refine (hfirst.append ?_).append (hmark _ rfl)
    cases initial with
    | none => exact .nil
    | some e => exact (hmark .equal rfl).append (h e rfl).parens_balanced
  | @ret value h span =>
    rw [words]
    refine ((hmark .ritorna rfl).append ?_).append (hmark _ rfl)
    cases value with
    | none => exact .nil
    | some e => exact (h e rfl).parens_balanced
  | block h span ih =>
    rw [words]
    exact hbody ih
  | @cond inside condition thenBranch elseBranch hcondition hthen hthenKind helse helseKind hclosed span
      ihthen ihelse =>
    rw [words_cond]
    refine (headWords_parens_balanced rfl hcondition).append (ihthen.append ?_)
    cases elseBranch with
    | none => exact .nil
    | some s => exact (hmark .oppure rfl).append (ihelse s rfl)
  | loop hcondition hbody hbodyKind span ih =>
    rw [words_loop]
    exact (headWords_parens_balanced rfl hcondition).append ih
  | function h name params span ih =>
    rw [words_function]
    exact (functionWords_parens_balanced name params).append (hbody ih)

theorem wordsOfAll_parens_balanced {inside : Bool} {ss : List Stmt} (h : ∀ s ∈ ss, s.WellFormed inside) :
    parens.Balanced (Stmt.wordsOfAll ss) :=
  balanced_wordsOfAll fun s hs => (h s hs).parens_balanced

private theorem braces_weight_of_isPlain {w : Word} (h : w.isPlain) : braces.weight w = 0 := by
  have hopening : w.kind ≠ .leftBrace := by
    intro hkind
    rw [Word.isPlain, hkind] at h
    cases h
  have hclosing : w.kind ≠ .rightBrace := by
    intro hkind
    rw [Word.isPlain, hkind] at h
    cases h
  simp [weight, braces, hopening, hclosing]

private theorem braces_balanced_of_isPlain {ws : List Word} (h : ws.all Word.isPlain) :
    braces.Balanced ws := by
  apply balanced_of_weight_eq_zero
  intro w hw
  exact braces_weight_of_isPlain (List.all_eq_true.mp h w hw)

theorem Stmt.WellFormed.braces_balanced {inside : Bool} {s : Stmt} (h : s.WellFormed inside) :
    braces.Balanced s.words := by
  have hsimple {inside : Bool} {s : Stmt} (h : s.WellFormed inside) (hs : s.isSimple) :
      braces.Balanced s.words := by
    obtain ⟨ws, hwords, hplain⟩ := h.words_of_isSimple hs
    rw [hwords]
    exact (braces_balanced_of_isPlain hplain).append (balanced_of_weight_eq_zero (by decide))
  induction h with
  | @expr inside value h span =>
    have hwell : Stmt.WellFormed inside (.expr value span) := .expr h span
    exact hsimple hwell rfl
  | @var inside initial h name span =>
    have hwell : Stmt.WellFormed inside (.var name initial span) := .var h name span
    exact hsimple hwell rfl
  | ret h span => exact hsimple (.ret h span) rfl
  | block h span ih =>
    rw [words]
    exact (balanced_wordsOfAll ih).wrap
  | @cond inside condition thenBranch elseBranch hcondition hthen hthenKind helse helseKind hclosed span
      ihthen ihelse =>
    rw [words_cond]
    apply (braces_balanced_of_isPlain (headWords_isPlain rfl hcondition)).append
    apply ihthen.append
    cases elseBranch with
    | none => exact .nil
    | some s =>
      have hsign : braces.Balanced [.mark .oppure] := balanced_of_weight_eq_zero (by decide)
      exact hsign.append (ihelse s rfl)
  | loop hcondition hbody hbodyKind span ih =>
    rw [words_loop]
    exact (braces_balanced_of_isPlain (headWords_isPlain rfl hcondition)).append ih
  | function h name params span ih =>
    rw [words_function]
    exact (braces_balanced_of_isPlain (functionWords_isPlain name params)).append
      (balanced_wordsOfAll ih).wrap

theorem wordsOfAll_balanced {inside : Bool} {ss : List Stmt} (h : ∀ s ∈ ss, s.WellFormed inside) :
    braces.Balanced (Stmt.wordsOfAll ss) :=
  balanced_wordsOfAll fun s hs => (h s hs).braces_balanced

end Copione
