import Copione.Proofs.ParserCompleteness
/-!
# What is expected next

Programs read word by word, with a stack of what is still expected. Everything that can be expected can be
written out in a few words, so that whatever was read so far can be completed. The left of `=` may be any
expression here.
-/
namespace Copione

/-- What can be expected. An expectation that is optional goes away when a word comes that it does not
take. -/
inductive Expected where
  | mark (kind : TokenKind)
  | name
  | expr
  /-- An operand with the calls and properties that follow it. -/
  | operand
  /-- Calls and properties that follow. -/
  | trailers
  /-- More operators of a level, with operands of the tighter ones. -/
  | pairs (ops : List PairOp) (tighter : List (List PairOp))
  /-- `=` and a value. -/
  | value
  /-- Items with commas between them, if there are any. -/
  | list (item : Expected)
  | more (item : Expected)
  /-- The value of a `ritorna`. -/
  | returned
  | statement (inside : Bool)
  | declaration (inside : Bool)
  /-- `oppure` and a statement. -/
  | branch (inside : Bool)
  /-- Declarations and the brace behind them. -/
  | body (inside : Bool)
  /-- Declarations and the end behind them. -/
  | program

namespace Expected

def optional : Expected → Bool
  | trailers | pairs .. | value | list _ | more _ | returned | branch _ => true
  | _ => false

def levels : List (List PairOp) → List Expected
  | [] => []
  | ops :: tighter => levels tighter ++ [pairs ops tighter]

def behindOperand? : Word → Option (List Expected)
  | .constant _ | .name _ | .mark .questo => some [trailers]
  | .mark .super => some [mark .dot, name, trailers]
  | .mark .leftParen => some [expr, mark .rightParen, trailers]
  | .mark kind => (UnaryOp.ofKind? kind).map fun _ => [operand]

def behindExpr? (w : Word) : Option (List Expected) :=
  (behindOperand? w).map (· ++ levels PairOp.levels ++ [value])

def behindStatement? (inside : Bool) (w : Word) : Option (List Expected) :=
  match w.kind with
  | .se => some [mark .leftParen, expr, mark .rightParen, statement inside, branch inside]
  | .mentre => some [mark .leftParen, expr, mark .rightParen, statement inside]
  | .ritorna => if inside then some [returned, mark .semicolon] else none
  | .leftBrace => some [body inside]
  | _ => (behindExpr? w).map (· ++ [mark .semicolon])

def behindDeclaration? (inside : Bool) (w : Word) : Option (List Expected) :=
  match w.kind with
  | .variabile => some [name, value, mark .semicolon]
  | .funzione =>
    some [name, mark .leftParen, list name, mark .rightParen, mark .leftBrace, body true]
  | _ => behindStatement? inside w

def behind? : Expected → Word → Option (List Expected)
  | mark kind, w => if w.kind = kind then some [] else none
  | name, w => if w.kind = .identifier then some [] else none
  | expr, w | returned, w => behindExpr? w
  | operand, w => behindOperand? w
  | trailers, w =>
    match w.kind with
    | .leftParen => some [list expr, mark .rightParen, trailers]
    | .dot => some [name, trailers]
    | _ => none
  | pairs ops tighter, w =>
    if ops.any (·.kind == w.kind) then some (operand :: levels tighter ++ [pairs ops tighter])
    else none
  | value, w => if w.kind = .equal then some [expr] else none
  | list item, w => (item.behind? w).map (· ++ [more item])
  | more item, w => if w.kind = .comma then some [item, more item] else none
  | statement inside, w => behindStatement? inside w
  | declaration inside, w => behindDeclaration? inside w
  | branch inside, w => if w.kind = .oppure then some [statement inside] else none
  | body inside, w =>
    if w.kind = .rightBrace then some [] else (behindDeclaration? inside w).map (· ++ [body inside])
  | program, w =>
    if w.kind = .eof then some [] else (behindDeclaration? false w).map (· ++ [program])

def read : List Expected → Word → Option (List Expected)
  | [], _ => none
  | x :: rest, w =>
    match x.behind? w with
    | some xs => some (xs ++ rest)
    | none => if x.optional then read rest w else none

def readAll : List Expected → List Word → Option (List Expected)
  | expected, [] => some expected
  | expected, w :: ws => (read expected w).bind (readAll · ws)

/-- The words are a program, whatever is assigned to in it. -/
def Accepts (ws : List Word) : Prop := readAll [program] (ws ++ [.mark .eof]) = some []

variable {x : Expected} {xs ys rest : List Expected} {w : Word} {ws : List Word}

theorem read_take (h : x.behind? w = some ys) (rest : List Expected) :
    read (x :: rest) w = some (ys ++ rest) := by
  rw [read, h]

theorem read_skip (hx : x.optional) (h : x.behind? w = none) (rest : List Expected) :
    read (x :: rest) w = read rest w := by
  rw [read, h]
  exact if_pos hx

theorem read_refuse (hx : x.optional = false) (h : x.behind? w = none) (rest : List Expected) :
    read (x :: rest) w = none := by
  rw [read, h]
  simp [hx]

/-- What takes the same words as something else, with more behind it. If it is optional, nothing takes a
word in its stead. -/
theorem read_unfold {y : Expected} (hx : x.optional → read rest w = none) (hy : y.optional = false)
    (h : x.behind? w = (y.behind? w).map (· ++ xs)) : read (x :: rest) w = read (y :: xs ++ rest) w := by
  cases hys : y.behind? w with
  | none =>
    rw [List.cons_append, read_refuse hy hys, read, h, hys]
    simpa using hx
  | some ys =>
    rw [hys] at h
    rw [read_take h, List.cons_append, read_take hys, List.append_assoc]

theorem readAll_append (xs : List Expected) (ws ws' : List Word) :
    readAll xs (ws ++ ws') = (readAll xs ws).bind (readAll · ws') := by
  induction ws generalizing xs with
  | nil => rfl
  | cons w ws ih =>
    rw [List.cons_append, readAll, readAll]
    cases read xs w with
    | none => rfl
    | some ys => exact ih ys

def shortest : Expected → List Word
  | mark kind => [.mark kind]
  | name | expr | operand => [.name "x"]
  | statement _ | declaration _ => [.name "x", .mark .semicolon]
  | body _ => [.mark .rightBrace]
  | program => [.mark .eof]
  | _ => []

def written (xs : List Expected) : List Word := xs.flatMap shortest

@[simp] theorem written_cons (x : Expected) (xs : List Expected) :
    written (x :: xs) = x.shortest ++ written xs := List.flatMap_cons

def isItem : Expected → Bool
  | name | expr => true
  | _ => false

/-- The kinds of words that may come behind what is written out. -/
def fits : Expected → TokenKind → Bool
  | mark kind, _ => kind.isMark
  | name, _ | body _, _ => true
  | expr, k | operand, k | trailers, k | pairs .., k | value, k => k == .rightParen || k == .semicolon
  | list item, k | more item, k => k == .rightParen && item.isItem
  | returned, k => k == .semicolon
  | statement _, k | declaration _, k | branch _, k => k == .rightBrace || k == .eof
  | program, _ => false

/-- Each expectation is written out in front of a word that may come behind it. -/
inductive Sound : List Expected → Prop
  | program : Sound [program]
  | cons {x : Expected} {xs : List Expected} {w : Word} {ws : List Word} (h : Sound xs)
    (hw : written xs = w :: ws) (hx : x.fits w.kind) : Sound (x :: xs)

private theorem fits_of_isItem (hx : x.isItem) : x.fits .rightParen := by
  cases x <;> first | rfl | cases hx

private theorem Sound.exists_written (h : Sound xs) : ∃ w ws, written xs = w :: ws := by
  induction h with
  | program => exact ⟨_, _, rfl⟩
  | @cons x xs w ws h hw hx ih =>
    rw [written_cons, hw]
    cases x.shortest with
    | nil => exact ⟨w, ws, rfl⟩
    | cons v vs => exact ⟨v, vs ++ w :: ws, rfl⟩

private theorem Sound.cons_of_fits (h : Sound xs) (hx : ∀ k, x.fits k) : Sound (x :: xs) := by
  obtain ⟨w, ws, hw⟩ := h.exists_written
  exact .cons h hw (hx _)

private theorem Sound.cons_mark {kind : TokenKind} (h : Sound xs) (hkind : kind.isMark) :
    Sound (.mark kind :: xs) := h.cons_of_fits fun _ => hkind

private theorem Sound.cons_name (h : Sound xs) : Sound (.name :: xs) := h.cons_of_fits fun _ => rfl

private theorem Sound.cons_body (h : Sound xs) (inside : Bool) : Sound (.body inside :: xs) :=
  h.cons_of_fits fun _ => rfl

private theorem written_levels (levels : List (List PairOp)) (xs : List Expected) :
    written (Expected.levels levels ++ xs) = written xs := by
  induction levels generalizing xs with
  | nil => rfl
  | cons ops tighter ih =>
    rw [Expected.levels, List.append_assoc, ih]
    rfl

private theorem Sound.append_levels (h : Sound xs) (hw : written xs = w :: ws)
    (hx : Expected.value.fits w.kind)
    (levels : List (List PairOp)) : Sound (Expected.levels levels ++ xs) := by
  induction levels generalizing xs with
  | nil => exact h
  | cons ops tighter ih =>
    rw [Expected.levels, List.append_assoc]
    exact ih (.cons h hw hx) hw

section

variable (h : Sound rest) (hw : written rest = w :: ws) {v : Word}
include h hw

private theorem Sound.behindOperand (hx : operand.fits w.kind) (hv : behindOperand? v = some ys) :
    Sound (ys ++ rest) := by
  have htrailers : Sound (trailers :: rest) := .cons h hw hx
  unfold behindOperand? at hv
  split at hv
  · obtain rfl := Option.some.inj hv
    exact htrailers
  · obtain rfl := Option.some.inj hv
    exact htrailers
  · obtain rfl := Option.some.inj hv
    exact htrailers
  · obtain rfl := Option.some.inj hv
    exact htrailers.cons_name.cons_mark rfl
  · obtain rfl := Option.some.inj hv
    exact .cons (htrailers.cons_mark rfl) rfl rfl
  · obtain ⟨op, -, rfl⟩ := Option.map_eq_some_iff.mp hv
    exact .cons h hw hx

private theorem Sound.behindExpr (hx : expr.fits w.kind) (hv : behindExpr? v = some ys) :
    Sound (ys ++ rest) := by
  obtain ⟨zs, hzs, rfl⟩ := Option.map_eq_some_iff.mp hv
  have hvalue : Sound (value :: rest) := .cons h hw hx
  have hlevels := hvalue.append_levels hw hx PairOp.levels
  have hwritten : written (levels PairOp.levels ++ value :: rest) = w :: ws := by
    rw [written_levels]
    exact hw
  have hall := hlevels.behindOperand hwritten hx hzs
  simpa using hall

private theorem Sound.behindStatement {inside : Bool} (hx : (statement inside).fits w.kind)
    (hv : behindStatement? inside v = some ys) : Sound (ys ++ rest) := by
  have hsemicolon : Sound (mark .semicolon :: rest) := h.cons_mark rfl
  have hinner : Sound (statement inside :: rest) := .cons h hw hx
  have hbranch : Sound (branch inside :: rest) := .cons h hw hx
  have hthen : Sound (statement inside :: branch inside :: rest) := .cons hbranch hw hx
  unfold behindStatement? at hv
  split at hv
  · obtain rfl := Option.some.inj hv
    exact (Sound.cons (x := expr) (hthen.cons_mark rfl) rfl rfl).cons_mark rfl
  · obtain rfl := Option.some.inj hv
    exact (Sound.cons (x := expr) (hinner.cons_mark rfl) rfl rfl).cons_mark rfl
  · split at hv
    · obtain rfl := Option.some.inj hv
      exact .cons hsemicolon rfl rfl
    · cases hv
  · obtain rfl := Option.some.inj hv
    exact h.cons_body inside
  · obtain ⟨zs, hzs, rfl⟩ := Option.map_eq_some_iff.mp hv
    rw [List.append_assoc]
    exact hsemicolon.behindExpr rfl rfl hzs

private theorem Sound.behindDeclaration {inside : Bool} (hx : (declaration inside).fits w.kind)
    (hv : behindDeclaration? inside v = some ys) : Sound (ys ++ rest) := by
  unfold behindDeclaration? at hv
  split at hv
  · obtain rfl := Option.some.inj hv
    exact (Sound.cons (x := value) (h.cons_mark rfl) rfl rfl).cons_name
  · obtain rfl := Option.some.inj hv
    have hbrace : Sound (mark .leftBrace :: body true :: rest) := (h.cons_body true).cons_mark rfl
    exact ((Sound.cons (x := list name) (hbrace.cons_mark rfl) rfl rfl).cons_mark rfl).cons_name
  · exact h.behindStatement hw hx hv

/-- What is expected behind a word can be written out again. -/
theorem Sound.behind (hx : x.fits w.kind) (hv : x.behind? v = some ys) : Sound (ys ++ rest) := by
  induction x generalizing rest w ws ys with
  | mark kind =>
    rw [behind?] at hv
    split at hv <;> cases hv
    exact h
  | name =>
    rw [behind?] at hv
    split at hv <;> cases hv
    exact h
  | expr => exact h.behindExpr hw hx hv
  | operand => exact h.behindOperand hw hx hv
  | trailers =>
    have htrailers : Sound (trailers :: rest) := .cons h hw hx
    rw [behind?] at hv
    split at hv <;> cases hv
    · exact .cons (htrailers.cons_mark rfl) rfl rfl
    · exact htrailers.cons_name
  | pairs ops tighter =>
    have hpairs : Sound (pairs ops tighter :: rest) := .cons h hw hx
    have hlevels := hpairs.append_levels hw hx tighter
    rw [behind?] at hv
    split at hv <;> cases hv
    have hwritten : written (levels tighter ++ pairs ops tighter :: rest) = w :: ws := by
      rw [written_levels]
      exact hw
    simpa using Sound.cons (x := operand) hlevels hwritten hx
  | value =>
    rw [behind?] at hv
    split at hv <;> cases hv
    exact .cons h hw hx
  | list item ih =>
    obtain ⟨zs, hzs, rfl⟩ := Option.map_eq_some_iff.mp hv
    obtain ⟨hparen, hitem⟩ := Bool.and_eq_true_iff.mp hx
    have hmore : Sound (more item :: rest) := .cons h hw hx
    rw [List.append_assoc]
    exact ih hmore hw (eq_of_beq hparen ▸ fits_of_isItem hitem) hzs
  | more item ih =>
    obtain ⟨hparen, hitem⟩ := Bool.and_eq_true_iff.mp hx
    have hmore : Sound (more item :: rest) := .cons h hw hx
    rw [behind?] at hv
    split at hv <;> cases hv
    exact .cons hmore hw (eq_of_beq hparen ▸ fits_of_isItem hitem)
  | returned =>
    refine h.behindExpr hw ?_ hv
    rw [eq_of_beq hx]
    rfl
  | statement inside => exact h.behindStatement hw hx hv
  | declaration inside => exact h.behindDeclaration hw hx hv
  | branch inside =>
    rw [behind?] at hv
    split at hv <;> cases hv
    exact .cons h hw hx
  | body inside =>
    rw [behind?] at hv
    split at hv
    · cases hv
      exact h
    · obtain ⟨zs, hzs, rfl⟩ := Option.map_eq_some_iff.mp hv
      rw [List.append_assoc]
      exact (h.cons_body inside).behindDeclaration rfl rfl hzs
  | program => cases hx

end

private theorem Sound.read (h : Sound xs) (hw : w.kind ≠ .eof) (hread : Expected.read xs w = some ys) :
    Sound ys := by
  induction h with
  | program =>
    rw [Expected.read] at hread
    split at hread
    · next zs hzs =>
      obtain rfl := Option.some.inj hread
      rw [behind?, if_neg hw] at hzs
      obtain ⟨us, hus, rfl⟩ := Option.map_eq_some_iff.mp hzs
      rw [List.append_nil]
      exact Sound.program.behindDeclaration rfl rfl hus
    · cases hread
  | @cons x xs v vs h hv hx ih =>
    rw [Expected.read] at hread
    split at hread
    · next zs hzs =>
      obtain rfl := Option.some.inj hread
      exact h.behind hv hx hzs
    · split at hread
      · exact ih hread
      · cases hread

private theorem behindOperand?_eq_none (h : w.kind.beginsExpr = false) : behindOperand? w = none := by
  cases w with
  | mark kind => cases kind <;> first | rfl | cases h
  | name => cases h
  | constant value => exact absurd value.kind_beginsExpr (by simpa [Word.kind] using h)

theorem behindExpr?_eq_none (h : w.kind.beginsExpr = false) : behindExpr? w = none := by
  rw [behindExpr?, behindOperand?_eq_none h]
  rfl

theorem behindDeclaration?_eof (inside : Bool) (h : w.kind = .eof) :
    behindDeclaration? inside w = none := by
  simp [behindDeclaration?, behindStatement?, h, behindExpr?_eq_none (w := w) (by rw [h]; rfl)]

private theorem behind?_of_fits (hoptional : x.optional) (hx : x.fits w.kind) : x.behind? w = none := by
  have hclosers (hx : (w.kind == .rightParen || w.kind == .semicolon) = true) :
      w.kind = .rightParen ∨ w.kind = .semicolon := by simpa using hx
  cases x with
  | mark | name | expr | operand | statement | declaration | body | program => cases hoptional
  | trailers => rcases hclosers hx with h | h <;> simp [behind?, h]
  | pairs ops tighter =>
    have hkind (op : PairOp) : op.kind ≠ w.kind := by
      rcases hclosers hx with h | h <;> rw [h] <;> rcases op with op | op <;> cases op <;> decide
    simp [behind?, hkind]
  | value => rcases hclosers hx with h | h <;> simp [behind?, h]
  | list item =>
    obtain ⟨hparen, hitem⟩ := Bool.and_eq_true_iff.mp hx
    have hkind := eq_of_beq hparen
    cases item with
    | expr => simp [behind?, behindExpr?_eq_none (w := w) (by rw [hkind]; rfl)]
    | name => simp [behind?, hkind]
    | _ => cases hitem
  | more item =>
    have hkind := eq_of_beq (Bool.and_eq_true_iff.mp hx).1
    simp [behind?, hkind]
  | returned =>
    have hkind : w.kind = .semicolon := eq_of_beq hx
    exact behindExpr?_eq_none (by rw [hkind]; rfl)
  | branch inside =>
    have hkind : w.kind = .rightBrace ∨ w.kind = .eof := by simpa [fits] using hx
    rcases hkind with h | h <;> simp [behind?, h]

private theorem read_skip_of_fits (hxs : ∀ x ∈ xs, x.optional ∧ x.fits w.kind) (rest : List Expected) :
    read (xs ++ rest) w = read rest w := by
  induction xs with
  | nil => rfl
  | cons x xs ih =>
    obtain ⟨hoptional, hx⟩ := hxs x List.mem_cons_self
    rw [List.cons_append, read_skip hoptional (behind?_of_fits hoptional hx)]
    exact ih fun x hx => hxs x (List.mem_cons_of_mem _ hx)

private theorem optional_of_mem_levels (hx : expr.fits w.kind) (levels : List (List PairOp)) :
    ∀ x ∈ Expected.levels levels, x.optional ∧ x.fits w.kind := by
  induction levels with
  | nil => simp [Expected.levels]
  | cons ops tighter ih =>
    intro x hmem
    rw [Expected.levels] at hmem
    rcases List.mem_append.mp hmem with hmem | hmem
    · exact ih x hmem
    · rw [List.mem_singleton.mp hmem]
      exact ⟨rfl, hx⟩

/-- Behind a name everything that would go on with the expression is optional. -/
private theorem behindExpr?_name (n : String) : ∃ ys, behindExpr? (.name n) = some ys ∧
    ∀ w : Word, expr.fits w.kind → ∀ y ∈ ys, y.optional ∧ y.fits w.kind := by
  refine ⟨_, rfl, fun w hw y hy => ?_⟩
  rcases List.mem_append.mp hy with hy | hy
  · rcases List.mem_append.mp hy with hy | hy
    · rw [List.mem_singleton.mp hy]
      exact ⟨rfl, hw⟩
    · exact optional_of_mem_levels hw _ y hy
  · rw [List.mem_singleton.mp hy]
    exact ⟨rfl, hw⟩

/-- What is expected is read where it is written out. -/
theorem Sound.readAll_written (h : Sound xs) : readAll xs (written xs) = some [] := by
  induction h with
  | program => rfl
  | @cons x xs v vs h hv hx ih =>
    have hskip (ys : List Expected) (hys : ∀ y ∈ ys, y.optional ∧ y.fits v.kind) :
        readAll (ys ++ xs) (written xs) = some [] := by
      rw [← ih, hv, readAll, readAll, read_skip_of_fits hys]
    have hleave (hoptional : x.optional) : readAll (x :: xs) (written xs) = some [] :=
      hskip [x] (by simpa using ⟨hoptional, hx⟩)
    have htake (w : Word) (ws : List Word) (ys : List Expected) (hshortest : x.shortest = w :: ws)
        (hys : x.behind? w = some ys) (hrest : readAll (ys ++ xs) (ws ++ written xs) = some []) :
        readAll (x :: xs) (written (x :: xs)) = some [] := by
      rw [written_cons, hshortest, List.cons_append, readAll, read_take hys]
      exact hrest
    obtain ⟨ys, hname, hys⟩ := behindExpr?_name "x"
    have hstatement (ws : List Word) : readAll (ys ++ [mark .semicolon] ++ xs) (.mark .semicolon :: ws) =
        readAll xs ws := by
      rw [readAll, List.append_assoc, read_skip_of_fits (hys _ rfl)]
      rfl
    cases x with
    | mark kind => exact htake _ _ [] rfl (if_pos rfl) ih
    | name => exact htake _ _ [] rfl rfl ih
    | expr => exact htake _ _ ys rfl hname (hskip ys (hys v hx))
    | operand => exact htake _ _ [trailers] rfl rfl (hskip [trailers] (by simpa using ⟨rfl, hx⟩))
    | statement inside | declaration inside =>
      refine htake _ _ (ys ++ [mark .semicolon]) rfl ?_ ((hstatement _).trans ih)
      exact congrArg (Option.map (· ++ [mark .semicolon])) hname
    | body inside => exact htake _ _ [] rfl rfl ih
    | program => cases hx
    | _ => exact hleave rfl

private theorem Sound.readAll (h : Sound xs) (hws : ∀ w ∈ ws, w.kind ≠ .eof)
    (hread : Expected.readAll xs ws = some ys) : Sound ys := by
  induction ws generalizing xs with
  | nil =>
    obtain rfl := Option.some.inj hread
    exact h
  | cons w ws ih =>
    obtain ⟨zs, hzs, hrest⟩ := Option.bind_eq_some_iff.mp hread
    exact ih (h.read (hws w List.mem_cons_self) hzs) (fun v hv => hws v (List.mem_cons_of_mem _ hv)) hrest

private theorem Sound.written_eq (h : Sound xs) :
    ∃ ws, ws.all Word.isProper ∧ written xs = ws ++ [.mark .eof] := by
  induction h with
  | program => exact ⟨[], rfl, rfl⟩
  | @cons x xs v vs h hv hx ih =>
    obtain ⟨ws, hproper, hws⟩ := ih
    refine ⟨x.shortest ++ ws, ?_, by rw [written_cons, hws, List.append_assoc]⟩
    have hshortest : x.shortest.all Word.isProper := by
      cases x with
      | mark kind =>
        have hkind : kind.isMark := hx
        simp [shortest, Word.isProper, hkind]
      | program => cases hx
      | _ => rfl
    rw [List.all_append, hshortest, hproper]
    rfl

/-- What was read without a word that is refused is the beginning of a program. -/
theorem exists_accepts (h : (readAll [program] ws).isSome) (hws : ∀ w ∈ ws, w.kind ≠ .eof) :
    ∃ more, more.all Word.isProper ∧ Accepts (ws ++ more) := by
  obtain ⟨xs, hxs⟩ := Option.isSome_iff_exists.mp h
  have hsound := Sound.program.readAll hws hxs
  obtain ⟨more, hproper, hmore⟩ := hsound.written_eq
  refine ⟨more, hproper, ?_⟩
  rw [Accepts, List.append_assoc, ← hmore, readAll_append, hxs]
  exact hsound.readAll_written

end Expected
end Copione
