import Copione.Proofs.Coupling
import Copione.Proofs.ScopeTrees
/-!
# Courses of runs

Beside the evaluator stands the course that it takes: the machine at every point of a run, and the
values that are handed over there. From each point to the next one the scopes change once at most, so
no table of scopes is left out. An action is grounded if its course keeps to trees of scopes and hands
over only values whose functions have a place in them. Each way to put actions together has its rule.
-/
namespace Copione

/-- A machine at some point of a run, with the values that are handed over there: what an expression
evaluates to, what a function is called with, or what it returns. -/
structure Waypoint where
  machine : Machine
  values : List Value

/-- The points that an action goes through when it starts on a given machine. -/
abbrev Course := Machine → List Waypoint

def Signal.values : Signal → List Value
  | .returned value => [value]
  | _ => []

@[simp] theorem Signal.values_atLine (e : Signal) (line : Nat) : (e.atLine line).values = e.values := by
  cases e with
  | error e =>
    obtain ⟨kind, message, l⟩ := e
    cases l <;> rfl
  | returned value => rfl
  | exhausted => rfl

namespace Course

variable {α : Type}

def still : Course := fun _ => []

def andThen (first : Course) (x : Eval α) (next : α → Course) : Course := fun m =>
  first m ++
    match x m with
    | .ok a n => next a n
    | .error _ _ => []

def ending (gives : α → List Value) (x : Eval α) : Course := fun m =>
  match x m with
  | .ok a n => [⟨n, gives a⟩]
  | .error e n => [⟨n, e.values⟩]

def behind (x : Eval α) : Course := ending (fun _ => []) x

def step (x : Eval α) (next : α → Course) : Course := (behind x).andThen x next

def within (scope : ScopeId) (c : Course) : Course := fun m =>
  ⟨{ m with current := scope }, []⟩ :: c { m with current := scope }

/-- The course of `x` from its beginning, with the values that it is given, to its end. -/
def whole (given : List Value) (gives : α → List Value) (x : Eval α) (between : Course) : Course :=
  fun m => ⟨m, given⟩ :: (between m ++ ending gives x m)

end Course

namespace Eval

section

variable (eval : Expr → Eval Value) (exec : Stmt → Eval Unit) (evalCourse : Expr → Course)
  (execCourse : Stmt → Course)

def evalAllCourse : List Expr → Course
  | [] => .still
  | e :: rest => (evalCourse e).andThen (eval e) fun _ => evalAllCourse rest

def runAllCourse : List Stmt → Course
  | [] => .still
  | stmt :: rest => (execCourse stmt).andThen (exec stmt) fun _ => runAllCourse rest

def bindParamsCourse (scope : ScopeId) : List String → List Value → Course
  | param :: params, arg :: args =>
    .step (defineIn scope param arg) fun _ => bindParamsCourse scope params args
  | _, _ => .still

def closureCourse (c : Closure) (args : List Value) : Course :=
  .step (newScope c.scope) fun scope =>
    (bindParamsCourse scope c.params args).andThen (bindParams scope c.params args) fun _ =>
      (runAllCourse exec execCourse c.body).within scope

def applyCourse (line : Nat) (callee : Value) (args : List Value) : Course :=
  .whole (callee :: args) (fun v => [v]) (apply exec line callee args) <|
    match callee with
    | .function f =>
      if args.length != f.arity then .still
      else
        match f with
        | .builtin _ => .still
        | .closure c => closureCourse exec execCourse c args
    | _ => .still

def loopTurnCourse (condition : Expr) (body : Stmt) : Course :=
  (evalCourse condition).andThen (eval condition) fun value =>
    if value.type == .null then .still else if value.isTruthy then execCourse body else .still

def evalOptionCourse : Option Expr → Course
  | none => .still
  | some e => evalCourse e

end

def repeatWhileCourse (turn : Eval Bool) (course : Course) : Nat → Course
  | 0 => .still
  | fuel + 1 =>
    course.andThen turn fun again => if again then repeatWhileCourse turn course fuel else .still

section

variable (fuel : Nat) (evalCourse : Expr → Course) (execCourse : Stmt → Course)

/-- The course of an expression from that of its parts, which are evaluated with `fuel`. -/
def exprCourse : Expr → Course
  | .literal .. | .name .. | .questo _ | .super .. => .still
  | .group inner _ => evalCourse inner
  | .unary _ operand _ => evalCourse operand
  | .binary _ left right _ => (evalCourse left).andThen (eval fuel left) fun _ => evalCourse right
  | .logical op left right s =>
    (evalCourse left).andThen (eval fuel left) fun v =>
      Course.still.andThen (expectBool op s.line v) fun a =>
        if (shortcut op a).isSome then .still else evalCourse right
  | .assign name value s =>
    (evalCourse value).andThen (eval fuel value) fun v => .behind (locate s.line (assign name v))
  | .call callee arguments s =>
    (evalCourse callee).andThen (eval fuel callee) fun f =>
      (evalAllCourse (eval fuel) evalCourse arguments).andThen (evalAll (eval fuel) arguments) fun args =>
        applyCourse (exec fuel) execCourse s.line f args
  | .get object _ _ | .set object _ _ _ => evalCourse object

def stmtCourse : Stmt → Course
  | .expr value _ => evalCourse value
  | .var name initial s =>
    (evalOptionCourse evalCourse initial).andThen (evalOption (eval fuel) initial) fun v =>
      .behind (locate s.line (define name v))
  | .block body _ => fun m =>
    Course.step (newScope m.current)
      (fun scope => (runAllCourse (exec fuel) execCourse body).within scope) m
  | .cond condition thenBranch elseBranch _ =>
    (evalCourse condition).andThen (eval fuel condition) fun v =>
      if v.isTruthy then execCourse thenBranch
      else
        match elseBranch with
        | some branch => execCourse branch
        | none => .still
  | .loop condition body _ =>
    repeatWhileCourse (loopTurn (eval fuel) (exec fuel) condition body)
      (loopTurnCourse (eval fuel) evalCourse execCourse condition body) fuel
  | .function name params body s => .behind (locate s.line (declareFunction name params body))
  | .ret value _ => evalOptionCourse evalCourse value

end

mutual

def evalCourse : Nat → Expr → Course
  | 0, _ => .still
  | fuel + 1, e =>
    .whole [] (fun v => [v]) (eval (fuel + 1) e) (exprCourse fuel (evalCourse fuel) (execCourse fuel) e)

def execCourse : Nat → Stmt → Course
  | 0, _ => .still
  | fuel + 1, stmt =>
    .whole [] (fun _ => []) (exec (fuel + 1) stmt)
      (stmtCourse fuel (evalCourse fuel) (execCourse fuel) stmt)

end

def interpretCourse (fuel : Nat) (stmts : List Stmt) : Course := runAllCourse (exec fuel) (execCourse fuel) stmts

end Eval

structure Machine.Sound (m : Machine) : Prop where
  tree : m.scopes.Tree
  current_lt : m.current < m.scopes.next

structure Waypoint.Sound (k : Waypoint) : Prop extends k.machine.Sound where
  anchored : ∀ v ∈ k.values, v.Anchored k.machine.scopes

/-- One change after another the points lead from the scopes `s` to `t`. -/
inductive Trail : Scopes → List Waypoint → Scopes → Prop
  | nil {s : Scopes} : Trail s [] s
  | cons {s t : Scopes} {k : Waypoint} {points : List Waypoint} (hchange : s.Change k.machine.scopes)
    (hk : k.Sound) (h : Trail k.machine.scopes points t) : Trail s (k :: points) t

namespace Trail

variable {s t u : Scopes} {points later : List Waypoint} {k : Waypoint}

theorem append (h : Trail s points t) (h' : Trail t later u) : Trail s (points ++ later) u := by
  induction h with
  | nil => exact h'
  | cons hchange hk _ ih => exact .cons hchange hk (ih h')

theorem one (hchange : s.Change k.machine.scopes) (hk : k.Sound) : Trail s [k] k.machine.scopes :=
  .cons hchange hk .nil

private theorem extends_mem (h : Trail s points t) : ∀ k ∈ points, s.Extends k.machine.scopes := by
  induction h with
  | nil => simp
  | cons hchange _ _ ih =>
    rintro k (_ | ⟨_, hk⟩)
    · exact hchange.extends
    · exact hchange.extends.trans (ih k hk)

private theorem extends_end (h : Trail s points t) : s.Extends t := by
  induction h with
  | nil => exact .refl _
  | cons hchange _ _ ih => exact hchange.extends.trans ih

theorem sound (h : Trail s points t) : ∀ k ∈ points, k.Sound := by
  induction h with
  | nil => simp
  | cons _ hk _ ih => simpa using ⟨hk, ih⟩

/-- Nothing that was there at one point is missing at a later one. -/
theorem pairwise (h : Trail s points t) :
    points.Pairwise fun k l => k.machine.scopes.Extends l.machine.scopes := by
  induction h with
  | nil => exact .nil
  | cons _ _ h ih => exact .cons h.extends_mem ih

end Trail

/-- The machine `m` comes to `n` by way of the points. -/
structure Machine.Comes (m : Machine) (points : List Waypoint) (n : Machine) : Prop where
  sound : n.Sound
  current_eq : n.current = m.current
  trail : Trail m.scopes points n.scopes

/-- On `m` the action takes the course `c`, ends where it began, and with a value for which `holds`
holds or with one whose functions have a place in the scopes. -/
def Grounded {α : Type} (holds : Scopes → α → Prop) (c : Course) (x : Eval α) (m : Machine) : Prop :=
  match x m with
  | .ok a n => m.Comes (c m) n ∧ holds n.scopes a
  | .error e n => m.Comes (c m) n ∧ ∀ v ∈ e.values, v.Anchored n.scopes

theorem Machine.Comes.extends {m n : Machine} {points : List Waypoint} (h : m.Comes points n) :
    m.scopes.Extends n.scopes := h.trail.extends_end

namespace Grounded

variable {α β : Type} {holds : Scopes → α → Prop} {holds' : Scopes → β → Prop} {c d : Course}
  {x y : Eval α} {m n : Machine} {points : List Waypoint}

private theorem of_ok {a : α} (hx : x m = .ok a n) (h : m.Comes (c m) n) (ha : holds n.scopes a) :
    Grounded holds c x m := by
  rw [Grounded, hx]
  exact ⟨h, ha⟩

private theorem of_error {e : Signal} (hx : x m = .error e n) (h : m.Comes (c m) n)
    (he : ∀ v ∈ e.values, v.Anchored n.scopes) : Grounded holds c x m := by
  rw [Grounded, hx]
  exact ⟨h, he⟩

theorem congr (h : Grounded holds d y m) (hx : x m = y m) (hc : c m = d m) : Grounded holds c x m := by
  rw [Grounded, hx, hc]
  exact h

theorem andThen {f : α → Eval β} {next : α → Course} (h : Grounded holds c x m)
    (hf : ∀ a n, m.Comes (c m) n → holds n.scopes a → Grounded holds' (next a) (f a) n) :
    Grounded holds' (c.andThen x next) (x >>= f) m := by
  unfold Grounded at h
  cases hx : x m with
  | error e n =>
    rw [hx] at h
    refine of_error (Run.bind_of_error hx) ?_ h.2
    rw [Course.andThen, hx, List.append_nil]
    exact h.1
  | ok a n =>
    rw [hx] at h
    obtain ⟨hcomes, ha⟩ := h
    have hnext := hf a n hcomes ha
    have hcourse : c.andThen x next m = c m ++ next a n := by rw [Course.andThen, hx]
    have hlater {k : Machine} (hk : n.Comes (next a n) k) : m.Comes (c.andThen x next m) k :=
      ⟨hk.sound, hk.current_eq.trans hcomes.current_eq, hcourse ▸ hcomes.trail.append hk.trail⟩
    unfold Grounded at hnext
    cases hrun : f a n with
    | ok b k =>
      rw [hrun] at hnext
      exact of_ok ((Run.bind_of_ok hx).trans hrun) (hlater hnext.1) hnext.2
    | error e k =>
      rw [hrun] at hnext
      exact of_error ((Run.bind_of_ok hx).trans hrun) (hlater hnext.1) hnext.2

theorem bind {f : α → Eval β} (h : Grounded holds c x m)
    (hf : ∀ a n, m.Comes (c m) n → holds n.scopes a → Grounded holds' .still (f a) n) :
    Grounded holds' c (x >>= f) m := by
  refine (h.andThen hf).congr rfl ?_
  rw [Course.andThen]
  cases x m <;> simp [Course.still]

theorem map (h : Grounded holds c x m) (f : α → β) (hf : ∀ s a, holds s a → holds' s (f a)) :
    Grounded holds' c (f <$> x) m := by
  unfold Grounded at h
  cases hx : x m with
  | ok a n =>
    rw [hx] at h
    exact of_ok (Run.map_of_ok hx) h.1 (hf _ _ h.2)
  | error e n =>
    rw [hx] at h
    exact of_error (Run.map_of_error hx) h.1 h.2

theorem locate (h : Grounded holds c x m) (line : Nat) : Grounded holds c (Eval.locate line x) m := by
  unfold Grounded at h
  cases hx : x m with
  | ok a n =>
    rw [hx] at h
    exact of_ok (by rw [Eval.locate, hx]) h.1 h.2
  | error e n =>
    rw [hx] at h
    exact of_error (by rw [Eval.locate, hx]) h.1 (by rw [Signal.values_atLine]; exact h.2)

theorem within {scope : ScopeId} (h : Grounded holds c x { m with current := scope }) (hm : m.Sound)
    (hscope : scope < m.scopes.next) : Grounded holds (c.within scope) (Eval.within scope x) m := by
  have hback {n : Machine} (hn : Machine.Comes { m with current := scope } (c { m with current := scope }) n) :
      m.Comes (c.within scope m) { n with current := m.current } :=
    ⟨⟨hn.sound.tree, Nat.lt_of_lt_of_le hm.current_lt hn.extends.next_le⟩, rfl,
      .cons .none ⟨⟨hm.tree, hscope⟩, by simp⟩ hn.trail⟩
  unfold Grounded at h
  cases hx : x { m with current := scope } with
  | ok a n =>
    rw [hx] at h
    exact of_ok (by rw [Eval.within]; simp only [hx]) (hback h.1) h.2
  | error e n =>
    rw [hx] at h
    exact of_error (by rw [Eval.within]; simp only [hx]) (hback h.1) h.2

theorem catchReturn {body : Eval Unit} (h : Grounded (fun _ _ => True) c body m) :
    Grounded Value.Anchored c (Eval.catchReturn body) m := by
  unfold Grounded at h
  cases hbody : body m with
  | ok a n =>
    rw [hbody] at h
    exact of_ok (by rw [Eval.catchReturn, hbody]) h.1 fun _ hc => by cases hc
  | error e n =>
    rw [hbody] at h
    cases e with
    | returned v => exact of_ok (by rw [Eval.catchReturn, hbody]) h.1 (h.2 v (by simp [Signal.values]))
    | error e => exact of_error (by rw [Eval.catchReturn, hbody]) h.1 h.2
    | exhausted => exact of_error (by rw [Eval.catchReturn, hbody]) h.1 h.2

theorem whole {given : List Value} {gives : α → List Value} (h : Grounded holds c x m) (hm : m.Sound)
    (hgiven : ∀ v ∈ given, v.Anchored m.scopes)
    (hgives : ∀ s a, holds s a → ∀ v ∈ gives a, v.Anchored s) :
    Grounded holds (.whole given gives x c) x m := by
  have hends {n : Machine} {values : List Value} (hn : m.Comes (c m) n)
      (hvalues : ∀ v ∈ values, v.Anchored n.scopes) : m.Comes (⟨m, given⟩ :: (c m ++ [⟨n, values⟩])) n :=
    ⟨hn.sound, hn.current_eq, .cons .none ⟨hm, hgiven⟩ (hn.trail.append (.one .none ⟨hn.sound, hvalues⟩))⟩
  unfold Grounded at h
  cases hx : x m with
  | ok a n =>
    rw [hx] at h
    refine of_ok hx ?_ h.2
    rw [Course.whole, Course.ending, hx]
    exact hends h.1 (hgives _ a h.2)
  | error e n =>
    rw [hx] at h
    refine of_error hx ?_ h.2
    rw [Course.whole, Course.ending, hx]
    exact hends h.1 h.2

theorem still_of_ok {a : α} (hm : m.Sound) (hx : x m = .ok a n) (hscopes : n.scopes = m.scopes)
    (hcurrent : n.current = m.current) (ha : holds m.scopes a) : Grounded holds .still x m := by
  obtain ⟨htree, hlt⟩ := hm
  rw [← hscopes] at htree ha
  rw [← hscopes, ← hcurrent] at hlt
  exact of_ok hx ⟨⟨htree, hlt⟩, hcurrent, hscopes ▸ .nil⟩ ha

theorem throw (hm : m.Sound) {e : Signal} (he : ∀ v ∈ e.values, v.Anchored m.scopes) :
    Grounded holds .still (throw e) m :=
  of_error rfl ⟨hm, rfl, .nil⟩ he

theorem pure {a : α} (hm : m.Sound) (ha : holds m.scopes a) : Grounded holds .still (pure a) m :=
  still_of_ok hm rfl rfl rfl ha

theorem fail (hm : m.Sound) (fault : Fault) : Grounded holds .still (Eval.fail fault) m :=
  throw hm (by simp [Signal.values])

theorem failAt (hm : m.Sound) (line : Nat) (fault : Fault) :
    Grounded holds .still (Eval.failAt line fault) m :=
  (fail hm fault).locate line

theorem behind_of_ok {a : α} (hm : m.Sound) (hx : x m = .ok a n)
    (hchange : m.scopes.Change n.scopes) (hcurrent : n.current = m.current) (ha : holds n.scopes a) :
    Grounded holds (.behind x) x m := by
  have hn : n.Sound :=
    ⟨hm.tree.change hchange, hcurrent ▸ Nat.lt_of_lt_of_le hm.current_lt hchange.extends.next_le⟩
  refine of_ok hx ⟨hn, hcurrent, ?_⟩ ha
  rw [Course.behind, Course.ending, hx]
  exact .one hchange ⟨hn, by simp⟩

theorem behind_of_error {e : Signal} (hm : m.Sound) (hx : x m = .error e n)
    (hscopes : n.scopes = m.scopes) (hcurrent : n.current = m.current) (he : e.values = []) :
    Grounded holds (.behind x) x m := by
  have hn : n.Sound := ⟨hscopes ▸ hm.tree, by rw [hscopes, hcurrent]; exact hm.current_lt⟩
  refine of_error hx ⟨hn, hcurrent, ?_⟩ (by simp [he])
  rw [Course.behind, Course.ending, hx]
  exact .one (hscopes ▸ .none) ⟨hn, by simp [he]⟩

theorem behind_locate (h : Grounded holds (.behind x) x m) (line : Nat) :
    Grounded holds (.behind (Eval.locate line x)) (Eval.locate line x) m := by
  refine (h.locate line).congr rfl ?_
  rw [Course.behind, Course.behind, Course.ending, Course.ending, Eval.locate]
  cases x m <;> simp

end Grounded
end Copione
