import Copione.Program.Sexp
/-!
# Nested lists of texts

Items in parentheses, with a space between two of them, can be read in one way only, if every atom is a
word or stands between quotes: a word ends where a space, a parenthesis or a newline comes, and a quoted
text at the next quote.
-/
namespace Copione

inductive Sexp where
  | atom (text : String)
  | list (items : List Sexp)

namespace Sexp

mutual

@[simp] def render : Sexp → String
  | .atom text => text
  | .list items => parenthesize (renderAll items)

@[simp] def renderAll : List Sexp → List String
  | [] => []
  | t :: ts => t.render :: renderAll ts

end

def spaced (ts : List Sexp) : List Char := ts.flatMap fun t => ' ' :: t.render.toList

private theorem spaced_cons (t : Sexp) (ts : List Sexp) : spaced (t :: ts) = ' ' ::
    (t.render.toList ++ spaced ts) := by
  rw [spaced, List.flatMap_cons, List.cons_append, ← spaced]

theorem renderAll_eq (ts : List Sexp) : renderAll ts = ts.map render := by
  induction ts with
  | nil => rfl
  | cons t ts ih => rw [renderAll, ih, List.map_cons]

private theorem toList_intercalate_cons (first : String) (rest : List String) :
    (" ".intercalate (first :: rest)).toList = first.toList ++ rest.flatMap fun s => ' ' :: s.toList := by
  induction rest generalizing first with
  | nil => simp
  | cons second rest ih => 
    rw [String.intercalate_cons_cons, String.toList_append, String.toList_append, ih]
    simp

private theorem toList_list_cons (t : Sexp) (ts : List Sexp) :
    (list (t :: ts)).render.toList = '(' :: (t.render.toList ++ (spaced ts ++ [')'])) := by
  rw [render, renderAll, parenthesize, String.toList_append, String.toList_append,
    toList_intercalate_cons, renderAll_eq]
  simp [spaced, List.flatMap_map]

def closing : List Char := [' ', ')', '\n']

def marks : List Char := '(' :: '"' :: closing

inductive Atomic : List Char → Prop
  | word {text : List Char} (hsome : text ≠ []) (h : ∀ c ∈ text, c ∉ marks) : Atomic text
  | quoted {body : List Char} (h : '"' ∉ body) : Atomic ('"' :: body ++ ['"'])

theorem Atomic.of_all {text : List Char} (hsome : text ≠ []) (h : text.all (· ∉ marks)) : Atomic text :=
  .word hsome (by simpa using h)

theorem notMem_marks {p : Char → Bool} (hnone : marks.all (!p ·)) {c : Char} (hc : p c) : c ∉ marks := by
  intro hmem
  have hfalse := List.all_eq_true.mp hnone c hmem
  rw [hc] at hfalse
  cases hfalse

/-- An item can end in front of the rest. -/
def Closes (rest : List Char) : Prop := ∀ c ∈ rest.head?, c ∈ closing

private theorem Atomic.head {text : List Char} (h : Atomic text) :
    ∃ c rest, text = c :: rest ∧ c ∉ '(' :: closing := by
  cases h with
  | word hsome h =>
    obtain ⟨c, rest, rfl⟩ := List.exists_cons_of_ne_nil hsome
    refine ⟨c, rest, rfl, fun hc => h c List.mem_cons_self ?_⟩
    rcases List.mem_cons.mp hc with rfl | hc
    · decide
    · exact List.mem_cons_of_mem _ (List.mem_cons_of_mem _ hc)
  | quoted h => exact ⟨'"', _, rfl, by decide⟩

private theorem takeWhile_unique {p : Char → Bool} {first first' rest rest' : List Char}
    (hfirst : ∀ c ∈ first, p c) (hfirst' : ∀ c ∈ first', p c) (hrest : ∀ c ∈ rest.head?, p c = false)
    (hrest' : ∀ c ∈ rest'.head?, p c = false) (h : first ++ rest = first' ++ rest') :
    first = first' ∧ rest = rest' := by
  have htake {first rest : List Char} (hfirst : ∀ c ∈ first, p c) (hrest : ∀ c ∈ rest.head?, p c = false) :
      (first ++ rest).takeWhile p = first := by
    rw [List.takeWhile_append_of_pos hfirst]
    cases rest with
    | nil => rw [List.takeWhile_nil, List.append_nil]
    | cons c rest => rw [List.takeWhile_cons_of_neg (by simp [hrest c rfl]), List.append_nil]
  obtain rfl : first = first' := by rw [← htake hfirst hrest, h, htake hfirst' hrest']
  exact ⟨rfl, List.append_cancel_left h⟩

private theorem Atomic.unique {text text' rest rest' : List Char} (h : Atomic text) (h' : Atomic text')
    (hrest : Closes rest) (hrest' : Closes rest') (heq : text ++ rest = text' ++ rest') :
    text = text' ∧ rest = rest' := by
  have hends {rest : List Char} (hrest : Closes rest) : ∀ c ∈ rest.head?, decide (c ∉ marks) = false :=
    fun c hc => decide_eq_false fun hmem =>
      hmem (List.mem_cons_of_mem _ (List.mem_cons_of_mem _ (hrest c hc)))
  -- a word goes on up to the first mark, a quoted text up to the next quote
  cases h with
  | word hsome h =>
    cases h' with
    | word hsome' h' =>
      exact takeWhile_unique (fun c hc => decide_eq_true (h c hc)) (fun c hc => decide_eq_true (h' c hc))
        (hends hrest) (hends hrest') heq
    | quoted h' =>
      obtain ⟨c, text, rfl⟩ := List.exists_cons_of_ne_nil hsome
      obtain ⟨rfl, -⟩ := List.cons.inj heq
      exact absurd (by decide) (h _ List.mem_cons_self)
  | @quoted body h =>
    cases h' with
    | word hsome' h' =>
      obtain ⟨c, text, rfl⟩ := List.exists_cons_of_ne_nil hsome'
      obtain ⟨rfl, -⟩ := List.cons.inj heq
      exact absurd (by decide) (h' _ List.mem_cons_self)
    | @quoted body' h' =>
      have hin {body : List Char} (h : '"' ∉ body) : ∀ c ∈ body, (c != '"') = true := fun c hc => by
        simp only [bne_iff_ne]
        exact fun heq => h (heq ▸ hc)
      have hbodies : body ++ '"' :: rest = body' ++ '"' :: rest' := by simpa using heq
      obtain ⟨rfl, htails⟩ := takeWhile_unique (hin h) (hin h') (by simp) (by simp) hbodies
      exact ⟨rfl, (List.cons.inj htails).2⟩

inductive Legible : Sexp → Prop
  | atom {text : String} (h : Atomic text.toList) : Legible (.atom text)
  | list {items : List Sexp} (h : ∀ t ∈ items, Legible t) : Legible (.list items)

private theorem toList_list (items : List Sexp) : ∃ rest, (list items).render.toList = '(' :: rest := by
  cases items with
  | nil => exact ⟨[')'], rfl⟩
  | cons t ts => exact ⟨_, toList_list_cons t ts⟩

private theorem Legible.head {t : Sexp} (h : t.Legible) : ∃ c rest,
    t.render.toList = c :: rest ∧ c ≠ ')' := by
  cases h with
  | atom h =>
    obtain ⟨c, rest, htext, hc⟩ := h.head
    refine ⟨c, rest, htext, ?_⟩
    rintro rfl
    exact hc (by decide)
  | @list items h =>
    obtain ⟨rest, htext⟩ := toList_list items
    exact ⟨'(', rest, htext, by decide⟩

private theorem atom_ne_list {text : String} (h : Atomic text.toList) (items : List Sexp)
    (rest rest' : List Char) : (atom text).render.toList ++ rest ≠ (list items).render.toList ++ rest' := by
  obtain ⟨c, more, htext, hc⟩ := h.head
  obtain ⟨more', htext'⟩ := toList_list items
  intro heq
  rw [htext', render, htext] at heq
  obtain ⟨rfl, -⟩ := List.cons.inj heq
  exact hc (by decide)

private theorem nil_ne_cons {t : Sexp} (h : t.Legible) (ts : List Sexp) (rest rest' : List Char) :
    (list []).render.toList ++ rest ≠ (list (t :: ts)).render.toList ++ rest' := by
  obtain ⟨c, more, htext, hc⟩ := h.head
  intro heq
  rw [toList_list_cons, htext] at heq
  obtain ⟨rfl, -⟩ := List.cons.inj (List.cons.inj heq).2
  exact hc rfl

private theorem closes_spaced (ts : List Sexp) (rest : List Char) : Closes
    (spaced ts ++ ')' :: rest) := by
  cases ts with
  | nil => simp [Closes, closing, spaced]
  | cons t ts => simp [Closes, closing, spaced]

mutual

/-- A legible text is read in one way only, up to where it ends. -/
theorem Legible.unique : ∀ {t u : Sexp} {rest rest' : List Char}, t.Legible → u.Legible →
    Closes rest → Closes rest' → t.render.toList ++ rest = u.render.toList ++ rest' →
      t = u ∧ rest = rest'
  | .atom text, .atom text', rest, rest', .atom h, .atom h', hrest, hrest', heq => by
    obtain ⟨htext, hrests⟩ := h.unique h' hrest hrest' heq
    exact ⟨congrArg Sexp.atom (String.toList_inj.mp htext), hrests⟩
  | .atom _, .list items, rest, rest', .atom h, _, _, _, heq => absurd heq (atom_ne_list h items rest rest')
  | .list items, .atom _, rest, rest', _, .atom h', _, _, heq =>
    absurd heq.symm (atom_ne_list h' items rest' rest)
  | .list [], .list [], _, _, _, _, _, _, heq => ⟨rfl, List.append_cancel_left heq⟩
  | .list [], .list (u :: us), rest, rest', _, .list h', _, _, heq =>
    absurd heq (nil_ne_cons (h' u List.mem_cons_self) us rest rest')
  | .list (t :: ts), .list [], rest, rest', .list h, _, _, _, heq =>
    absurd heq.symm (nil_ne_cons (h t List.mem_cons_self) ts rest' rest)
  | .list (t :: ts), .list (u :: us), rest, rest', .list h, .list h', _, _, heq => by
    -- behind the parenthesis the first item is as an item behind a space is
    have hspaced : spaced (t :: ts) ++ ')' :: rest = spaced (u :: us) ++ ')' :: rest' := by
      rw [toList_list_cons, toList_list_cons] at heq
      simpa only [spaced_cons, List.append_assoc, List.cons_append, List.nil_append, List.cons.injEq,
        true_and] using heq
    obtain ⟨hitems, rfl⟩ := Legible.spaced_unique h h' hspaced
    exact ⟨congrArg Sexp.list hitems, rfl⟩

theorem Legible.spaced_unique : ∀ {ts us : List Sexp} {rest rest' : List Char},
    (∀ t ∈ ts, t.Legible) → (∀ u ∈ us, u.Legible) →
      spaced ts ++ ')' :: rest = spaced us ++ ')' :: rest' → ts = us ∧ rest = rest'
  | [], [], _, _, _, _, heq => ⟨rfl, (List.cons.inj heq).2⟩
  | [], u :: us, _, _, _, _, heq => by simp [spaced] at heq
  | t :: ts, [], _, _, _, _, heq => by simp [spaced] at heq
  | t :: ts, u :: us, rest, rest', h, h', heq => by
    simp only [spaced_cons, List.cons_append, List.append_assoc, List.cons.injEq, true_and] at heq
    obtain ⟨rfl, hmore⟩ := Legible.unique (h t List.mem_cons_self) (h' u List.mem_cons_self)
      (closes_spaced ts rest) (closes_spaced us rest') heq
    obtain ⟨rfl, rfl⟩ := Legible.spaced_unique (fun t ht => h t (List.mem_cons_of_mem _ ht))
      (fun u hu => h' u (List.mem_cons_of_mem _ hu)) hmore
    exact ⟨rfl, rfl⟩

end

/-- Lines of legible texts are read in one way only. -/
theorem lines_unique {ts us : List Sexp} (h : ∀ t ∈ ts, t.Legible) (h' : ∀ u ∈ us, u.Legible)
    (heq : ts.flatMap (fun t => t.render.toList ++ ['\n']) = us.flatMap fun u => u.render.toList ++ ['\n']) :
    ts = us := by
  have hnewline (rest : List Char) : Closes ('\n' :: rest) := by simp [Closes, closing]
  induction ts generalizing us with
  | nil =>
    cases us with
    | nil => rfl
    | cons u us => simp at heq
  | cons t ts ih =>
    cases us with
    | nil => simp at heq
    | cons u us =>
      simp only [List.flatMap_cons, List.append_assoc, List.singleton_append] at heq
      obtain ⟨rfl, hmore⟩ := Legible.unique (h t List.mem_cons_self) (h' u List.mem_cons_self)
        (hnewline _) (hnewline _) heq
      rw [ih (fun t ht => h t (List.mem_cons_of_mem _ ht)) (fun u hu => h' u (List.mem_cons_of_mem _ hu))
        (List.cons.inj hmore).2]

end Sexp
end Copione
