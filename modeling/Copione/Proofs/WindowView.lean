import Copione.Proofs.WindowFilling
/-!
# What a window shows

A window answers as the place in the text that it shows: it finds every character that is
asked for, or fails and shows the same place as before.
-/
namespace Copione.Window

variable {lost : List UInt8} {w t u : Window}

/-- `t` shows what `w` shows, perhaps with another part of the stream resident. -/
structure Kept (lost : List UInt8) (w t : Window) : Prop where
  inv : Inv lost t
  view_eq : view lost t = view lost w
  remaining_le : Source.remaining t ≤ Source.remaining w
  capacity_eq : t.capacity = w.capacity
  memo_eq_none : w.memo = none → t.memo = none
  mayFail_of : ∀ reason, t.reader.MayFail reason → w.reader.MayFail reason

private theorem Filled.kept (h : Filled lost w t) : Kept lost w t :=
  ⟨h.inv, h.view_eq, h.remaining_le, h.capacity_eq, fun hw => h.memo_eq.trans hw, h.mayFail_of⟩

private theorem Kept.refl (h : Inv lost w) : Kept lost w w := (Filled.refl h).kept

private theorem Kept.trans (h : Kept lost w t) (h' : Kept lost t u) : Kept lost w u :=
  ⟨h'.inv, h'.view_eq.trans h.view_eq, Nat.le_trans h'.remaining_le h.remaining_le,
    h'.capacity_eq.trans h.capacity_eq, fun hw => h'.memo_eq_none (h.memo_eq_none hw),
    fun reason ht => h.mayFail_of reason (h'.mayFail_of reason ht)⟩

theorem toList_compact (w : Window) :
    w.compact.buffer.toList = w.buffer.toList.drop w.tokenStart := by
  simp only [compact, Array.toList_extract, List.extract]
  exact List.take_of_length_le (Nat.le_of_eq (by rw [List.length_drop, Array.length_toList]))

theorem compact_kept (h : Inv lost w) : Kept lost w w.compact := by
  have h1 := h.start_le
  have h2 := h.current_le
  have h3 := h.size_le
  have hsize : w.compact.buffer.size = w.buffer.size - w.tokenStart := by
    rw [← Array.length_toList, toList_compact, List.length_drop, Array.length_toList]
  have htoken : w.compact.token = w.token := by
    rw [token_eq, token_eq, toList_compact]
    simp [compact]
  have hrest : w.compact.buffer.toList.drop w.compact.current = w.buffer.toList.drop w.current := by
    rw [toList_compact, List.drop_drop]
    congr 1
    simp only [compact]
    omega
  have hcurrent : w.compact.current = w.current - w.tokenStart := rfl
  refine ⟨⟨h.capacity_pos, Nat.zero_le _, by omega, ?_, ?_, h.ended, h.delivered⟩, ?_, ?_, rfl,
    fun _ => rfl, fun _ h => h⟩
  · rw [hsize]
    exact Nat.le_trans (Nat.sub_le ..) h3
  · intro text hmemo
    cases hmemo
  · rw [view, view, htoken, hrest]
    rfl
  · simp only [Source.remaining, hsize, hcurrent]
    simp only [compact]
    omega

private theorem getElem?_view_rest (lost : List UInt8) {l : Nat} (hl : w.current + l < w.buffer.size) :
    (view lost w).rest[l]? = w.buffer[w.current + l]? := by
  rw [view, List.getElem?_append_left (by rw [List.length_drop, Array.length_toList]; omega),
    List.getElem?_drop, Array.getElem?_toList]

private theorem getElem?_view_rest_ended (h : Inv lost w) {l : Nat} (he : w.exhausted)
    (hpending : w.pending = []) (hl : w.buffer.size ≤ w.current + l) :
    (view lost w).rest[l]? = none := by
  obtain ⟨hbytes, hlost⟩ := h.ended he
  rw [view, supply, hpending, hbytes, hlost, List.getElem?_eq_none_iff]
  simp only [List.append_nil, Utf8.decode_nil, List.length_drop, Array.length_toList]
  omega

inductive Refused (lost : List UInt8) (w : Window) (l : Nat) : SourceError → Window → Prop
  | tooLong {t : Window} {start : List Char} (hkept : Kept lost w t)
    (hfull : w.capacity ≤ w.token.length + l) : Refused lost w l (.tokenTooLong w.capacity start) t
  | unreadable {t : Window} {reason : String} (hkept : Kept lost w t)
    (hreason : w.reader.MayFail reason) : Refused lost w l (.unreadable reason) t

private theorem Refused.kept {l : Nat} {e : SourceError} (h : Refused lost w l e t) :
    Kept lost w t := by
  cases h with
  | tooLong hkept => exact hkept
  | unreadable hkept => exact hkept

inductive Looked (lost : List UInt8) (w : Window) (l : Nat) :
    EStateM.Result SourceError Window (Option Char) → Prop
  | seen {t : Window} (hkept : Kept lost w t)
    (hresident : (view lost w).rest[l]?.isSome → t.current + l < t.buffer.size) :
    Looked lost w l (.ok (view lost w).rest[l]? t)
  | refused {t : Window} {e : SourceError} (h : Refused lost w l e t) : Looked lost w l (.error e t)

theorem ensure_eq (l : Nat) (w : Window) :
    ensure l w =
      if w.current + l < w.buffer.size then .ok true w
      else if w.exhausted && w.pending.isEmpty then .ok false w
      else if w.capacity ≤ w.current + l - w.tokenStart then
        .error (.tokenTooLong w.capacity ((w.buffer.toList.drop w.tokenStart).take 32)) w
      else
        match fill w.compact with
        | .ok _ t => .ok (decide (t.current + l < t.buffer.size)) t
        | .error e t => .error e t := by
  rw [ensure, Run.bind_of_ok Run.get_apply]
  split
  · rfl
  split
  · rfl
  split
  · rfl
  · change (fill >>= fun _ => do let w ← get; pure (decide (w.current + l < w.buffer.size)))
      w.compact = _
    cases hfill : fill w.compact with
    | ok a t => rw [Run.bind_of_ok hfill]; rfl
    | error e t => rw [Run.bind_of_error hfill]

theorem look_eq (l : Nat) (w : Window) :
    look l w =
      match ensure l w with
      | .ok true t => .ok t.buffer[t.current + l]? t
      | .ok false t => .ok none t
      | .error e t => .error e t := by
  rw [look]
  cases hensure : ensure l w with
  | ok b t =>
    rw [Run.bind_of_ok hensure]
    cases b <;> rfl
  | error e t => rw [Run.bind_of_error hensure]

theorem look_looked (l : Nat) (h : Inv lost w) : Looked lost w l (look l w) := by
  have hlen := h.token_length
  have h1 := h.start_le
  have hensure := ensure_eq l w
  rw [look_eq]
  split at hensure
  · next hl =>
    rw [hensure]
    simp only []
    rw [← getElem?_view_rest lost hl]
    exact .seen (.refl h) (fun _ => hl)
  next hl =>
  split at hensure
  · next hend =>
    rw [hensure]
    simp only [Bool.and_eq_true, List.isEmpty_iff] at hend
    have hnone := getElem?_view_rest_ended h hend.1 hend.2 (Nat.le_of_not_lt hl)
    have hseen : Looked lost w l (.ok (view lost w).rest[l]? w) := .seen (.refl h) (by simp [hnone])
    rwa [hnone] at hseen
  split at hensure
  · rw [hensure]
    exact .refused (.tooLong (.refl h) (by omega))
  next hroom =>
  have hcompact := compact_kept h
  have hfill := fill_pulled hcompact.inv
  rw [hensure]
  generalize fill w.compact = r at hfill
  cases hfill with
  | failed hfilled hreason =>
    exact .refused (.unreadable (hcompact.trans hfilled.kept) (hcompact.mayFail_of _ hreason))
  | @done t hfilled hfull =>
    have hkept := hcompact.trans hfilled.kept
    by_cases hl : t.current + l < t.buffer.size
    · simp only [hl, decide_true]
      rw [← getElem?_view_rest lost hl, hkept.view_eq]
      exact .seen hkept (fun _ => hl)
    · have hcurrent : t.current = w.current - w.tokenStart := hfilled.current_eq
      have hcapacity := hkept.capacity_eq
      -- the window is not full, for what is asked for would be resident
      obtain ⟨he, hpending⟩ := hfull.resolve_left (by omega)
      have hnone := getElem?_view_rest_ended hkept.inv he hpending (Nat.le_of_not_lt hl)
      rw [hkept.view_eq] at hnone
      have hseen : Looked lost w l (.ok (view lost w).rest[l]? t) := .seen hkept (by simp [hnone])
      simp only [hl, decide_false]
      rwa [hnone] at hseen

/-- The text of the token may be forgotten, or kept. -/
private theorem Inv.with_memo (h : Inv lost w) {memo : Option String}
    (hmemo : ∀ text, memo = some text → text = String.ofList w.token) :
    Inv lost { w with memo } :=
  ⟨h.capacity_pos, h.start_le, h.current_le, h.size_le, hmemo, h.ended, h.delivered⟩

private theorem forget_kept (h : Inv lost w) : Kept lost w { w with memo := none } :=
  ⟨h.with_memo (by simp), rfl, Nat.le_refl _, rfl, fun _ => rfl, fun _ h => h⟩

structure Took (lost : List UInt8) (w t : Window) (c : Char) (rest : List Char) : Prop where
  inv : Inv lost t
  view_eq : view lost t = ⟨c :: (view lost w).taken, rest, (view lost w).tokenOffset⟩
  remaining_lt : Source.remaining t + 1 ≤ Source.remaining w
  capacity_eq : t.capacity = w.capacity
  mayFail_of : ∀ reason, t.reader.MayFail reason → w.reader.MayFail reason

private theorem took_next {c : Char} {rest : List Char} (h : Inv lost w) (hmemo : w.memo = none)
    (hrest : (view lost w).rest = c :: rest) (hresident : w.current < w.buffer.size) :
    Took lost w { w with current := w.current + 1 } c rest := by
  have h1 := h.start_le
  have hdrop := List.drop_eq_getElem_cons (l := w.buffer.toList) (i := w.current) hresident
  simp only [view, hdrop, List.cons_append, List.cons.injEq] at hrest
  obtain ⟨hc, hrest⟩ := hrest
  have htoken : token { w with current := w.current + 1 } = w.token ++ [c] := by
    rw [token_eq, token_eq]
    simp only []
    rw [Nat.succ_sub h1, List.take_add_one, List.getElem?_drop, Nat.add_sub_cancel' h1,
      List.getElem?_eq_getElem hresident, hc]
    rfl
  refine ⟨⟨h.capacity_pos, by simp only []; omega, hresident, h.size_le, ?_, h.ended, h.delivered⟩,
    ?_, ?_, rfl, fun _ h => h⟩
  · intro text htext
    cases hmemo.symm.trans htext
  · simp only [view, htoken, List.reverse_append, List.reverse_cons, List.reverse_nil,
      List.nil_append, List.singleton_append]
    rw [← hrest]
    rfl
  · simp only [Source.remaining]
    omega

inductive Taken (lost : List UInt8) (w : Window) :
    EStateM.Result SourceError Window (Option Char) → Prop
  | ended {t : Window} (hrest : (view lost w).rest = []) (hkept : Kept lost w t) :
    Taken lost w (.ok none t)
  | char {t : Window} {c : Char} {rest : List Char} (hrest : (view lost w).rest = c :: rest)
    (htook : Took lost w t c rest) : Taken lost w (.ok (some c) t)
  | refused {t : Window} {e : SourceError} (h : Refused lost w 0 e t) : Taken lost w (.error e t)

theorem advance_eq (w : Window) :
    advance w =
      match look 0 { w with memo := none } with
      | .ok (some c) t => .ok (some c) { t with current := t.current + 1 }
      | .ok none t => .ok none t
      | .error e t => .error e t := by
  change (look 0 >>= fun next => do
    if next.isSome then modify fun w => { w with current := w.current + 1 }
    return next) { w with memo := none } = _
  cases hlook : look 0 { w with memo := none } with
  | ok a t =>
    rw [Run.bind_of_ok hlook]
    cases a <;> rfl
  | error e t => rw [Run.bind_of_error hlook]

private theorem Refused.after_kept {l : Nat} {e : SourceError} (h : Kept lost w t)
    (hr : Refused lost t l e u) : Refused lost w l e u := by
  have htoken : t.token.length = w.token.length := by
    simpa [view] using congrArg (fun c : Cursor => c.taken.length) h.view_eq
  cases hr with
  | tooLong hkept hfull =>
    rw [h.capacity_eq]
    exact .tooLong (h.trans hkept) (by rw [← h.capacity_eq, ← htoken]; exact hfull)
  | unreadable hkept hreason => exact .unreadable (h.trans hkept) (h.mayFail_of _ hreason)

theorem advance_taken (h : Inv lost w) : Taken lost w (advance w) := by
  have hforget := forget_kept h
  have hlook := look_looked 0 hforget.inv
  rw [advance_eq]
  generalize look 0 { w with memo := none } = r at hlook
  cases hlook with
  | refused hr => exact .refused (hr.after_kept hforget)
  | @seen t hkept hresident =>
    rw [hforget.view_eq] at hresident ⊢
    have hkept' := hforget.trans hkept
    cases hrest : (view lost w).rest with
    | nil => exact .ended hrest hkept'
    | cons c rest =>
      have htook := took_next hkept'.inv (hkept.memo_eq_none rfl) (hkept'.view_eq ▸ hrest)
        (hresident (by simp [hrest]))
      have hrem := htook.remaining_lt
      have hrem' := hkept'.remaining_le
      refine .char hrest ⟨htook.inv, ?_, by omega, htook.capacity_eq.trans hkept'.capacity_eq,
        fun reason ht => hkept'.mayFail_of reason (htook.mayFail_of reason ht)⟩
      rw [htook.view_eq, hkept'.view_eq]

/-- A window of a fixed capacity on a stream, `lost` never delivered, whose reader may fail for
the given reasons only. It shows its place in the text, and refuses only for such a reason or
because the token and the characters looked at do not fit. -/
def source (lost : List UInt8) (capacity : Nat) (mayFail : String → Prop) : Source.View Window where
  inv w := Inv lost w ∧ w.capacity = capacity ∧ ∀ reason, w.reader.MayFail reason → mayFail reason
  cursor := view lost
  refuses
    | .tokenTooLong n _, l, c => n = capacity ∧ capacity ≤ c.taken.length + l
    | .unreadable reason, _, _ => mayFail reason

variable {capacity : Nat} {mayFail : String → Prop}

private theorem Kept.source_inv (h : Kept lost w t) (hw : (source lost capacity mayFail).inv w) :
    (source lost capacity mayFail).inv t :=
  ⟨h.inv, h.capacity_eq.trans hw.2.1, fun reason ht => hw.2.2 reason (h.mayFail_of reason ht)⟩

private theorem Refused.source_refuses {l : Nat} {e : SourceError} (h : Refused lost w l e t)
    (hw : (source lost capacity mayFail).inv w) :
    (source lost capacity mayFail).refuses e l (view lost w) := by
  obtain ⟨hinv, rfl, hmay⟩ := hw
  cases h with
  | tooLong hkept hfull => exact ⟨rfl, by simpa [view] using hfull⟩
  | unreadable hkept hreason => exact hmay _ hreason

/-- A look answers as any question about the same character of the text does. -/
private theorem look_agrees (l : Nat) (question : EStateM SourceError Cursor (Option Char))
    (hquestion : ∀ c, question c = .ok c.rest[l]? c) (hw : (source lost capacity mayFail).inv w) :
    (source lost capacity mayFail).Agrees l w (look l) question := by
  have hlook := look_looked l hw.1
  unfold Source.View.Agrees
  generalize look l w = r at hlook
  cases hlook with
  | seen hkept =>
    have hrem := hkept.remaining_le
    refine ⟨hkept.source_inv hw, ?_, ?_⟩
    · simp only [source, hquestion, hkept.view_eq]
    · simp only [source, hkept.view_eq]
      omega
  | refused hr =>
    exact ⟨hr.kept.source_inv hw, hr.kept.view_eq, hr.kept.remaining_le, hr.source_refuses hw⟩

private theorem advance_agrees (hw : (source lost capacity mayFail).inv w) :
    (source lost capacity mayFail).Agrees 0 w advance Cursor.advance := by
  have htaken := advance_taken hw.1
  unfold Source.View.Agrees
  generalize advance w = r at htaken
  cases htaken with
  | ended hrest hkept =>
    have hrem := hkept.remaining_le
    refine ⟨hkept.source_inv hw, ?_, ?_⟩
    · have hcursor : view lost w = ⟨(view lost w).taken, [], (view lost w).tokenOffset⟩ := by
        rw [← hrest]
      simp only [source, hkept.view_eq]
      rw [hcursor]
      rfl
    · simp only [source, hkept.view_eq]
      omega
  | @char t c rest hrest htook =>
    have hrem := htook.remaining_lt
    refine ⟨⟨htook.inv, htook.capacity_eq.trans hw.2.1,
      fun reason ht => hw.2.2 reason (htook.mayFail_of reason ht)⟩, ?_, ?_⟩
    · have hcursor : view lost w = ⟨(view lost w).taken, c :: rest, (view lost w).tokenOffset⟩ := by
        rw [← hrest]
      simp only [source, htook.view_eq]
      rw [hcursor]
      rfl
    · simp only [source, htook.view_eq, hrest, List.length_cons]
      omega
  | refused hr =>
    exact ⟨hr.kept.source_inv hw, hr.kept.view_eq, hr.kept.remaining_le, hr.source_refuses hw⟩

private theorem currentToken_eq (h : Inv lost w) :
    currentToken w = (String.ofList w.token, { w with memo := some (String.ofList w.token) }) := by
  unfold currentToken
  split
  · next text hmemo =>
    obtain rfl := h.memo_eq text hmemo
    rw [← hmemo]
  · rfl

private theorem startToken_inv (h : Inv lost w) : Inv lost w.startToken :=
  ⟨h.capacity_pos, Nat.le_refl _, h.current_le, h.size_le, by simp [startToken], h.ended,
    h.delivered⟩

private theorem view_startToken (lost : List UInt8) (w : Window) :
    view lost w.startToken = (view lost w).startToken := by
  have htoken : w.startToken.token = [] := by simp [token_eq, startToken]
  simp [view, htoken, Cursor.startToken, Cursor.token]
  simp [startToken, supply]

/-- A window on a stream is a source of the text that the stream stands for. -/
theorem source_lawful (lost : List UInt8) (capacity : Nat) (mayFail : String → Prop) :
    (source lost capacity mayFail).Lawful where
  advance hw := advance_agrees hw
  peek hw := look_agrees 0 Source.peek (fun c => by simp [List.head?_eq_getElem?]) hw
  peekNext hw := look_agrees 1 Source.peekNext (fun c => by simp) hw
  currentToken {w} hw := by
    have htoken : Source.currentToken w = _ := currentToken_eq hw.1
    rw [htoken]
    refine ⟨by simp [source, view, Cursor.token], ⟨hw.1.with_memo ?_, hw.2⟩, rfl, Nat.le_refl _⟩
    intro text htext
    exact (Option.some.inj htext).symm
  startToken {w} hw :=
    ⟨⟨startToken_inv hw.1, hw.2⟩, view_startToken lost w, Nat.le_refl _⟩
  tokenOffset _ := rfl

def unread (reader : Reader) (capacity : Nat) : Window :=
  { capacity := max capacity 1, buffer := #[], tokenStart := 0, current := 0, tokenOffset := 0
    pending := [], exhausted := false, memo := none, reader }

theorem open?_eq (reader : Reader) (capacity : Nat) :
    open? reader capacity =
      match fill (unread reader capacity) with
      | .ok _ w => .ok w
      | .error e _ => .error e := rfl

/-- A window opens at the beginning of the text, unless a read fails. -/
theorem open?_shows {reader : Reader} (capacity : Nat)
    (hlost : reader.failure = none → lost = []) :
    match open? reader capacity with
    | .ok w => (source lost (max capacity 1) reader.MayFail).inv w ∧
        view lost w = Cursor.ofText (Utf8.decode (reader.bytes ++ lost))
    | .error e => ∃ reason, e = .unreadable reason ∧ reader.MayFail reason := by
  have hstart : Inv lost (unread reader capacity) :=
    ⟨by simp only [unread]; omega, Nat.le_refl _, Nat.le_refl _, Nat.zero_le _, by simp [unread],
      by simp [unread], hlost⟩
  have hfill := fill_pulled hstart
  rw [open?_eq]
  generalize fill (unread reader capacity) = r at hfill
  cases hfill with
  | done hfilled =>
    refine ⟨⟨hfilled.inv, hfilled.capacity_eq, hfilled.mayFail_of⟩, hfilled.view_eq.trans ?_⟩
    simp [view, token, supply, unread, Cursor.ofText]
  | failed hfilled hreason => exact ⟨_, rfl, hreason⟩

end Copione.Window
