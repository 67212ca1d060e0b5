import Copione.Proofs.GuardedWindow
import Copione.Proofs.ReadPatterns
/-!
# What a window is like between two calls

However its reader goes on and whichever calls were made, a window has its token, its place and its end
in order, keeps fewer bytes undecoded than a character may have, and none at the end of input. So the
window under guard raises no alarm.
-/
namespace Copione

/-- Bytes that later ones could complete are fewer than a character may have. -/
theorem Utf8.length_le_of_first?_eq_none {bytes : List UInt8} (h : first? bytes = none) :
    bytes.length ≤ 3 := by
  rcases first?_none h with rfl | hbad
  · exact Nat.zero_le 3
  rcases hbad.single_or_begins with hone | ⟨c, hc⟩
  · omega
  · have hle := hc.length_le
    have hfour := c.utf8Size_le_four
    rw [String.length_utf8EncodeChar] at hle
    refine Nat.le_of_not_lt fun hlong => hbad.undecodable c ?_
    -- the whole character would be there
    have hwhole : bytes = String.utf8EncodeChar c :=
      hc.eq_of_length (by rw [String.length_utf8EncodeChar]; omega)
    exact hwhole ▸ List.prefix_append _ []

namespace Reader

private theorem deliver_le (count : Nat) (r : Reader) :
    (r.deliver count).2.span ≤ r.span ∧
      ∀ bytes, (r.deliver count).1 = .piece bytes → bytes.length ≤ count := by
  obtain ⟨stream, script, failure⟩ := r
  have hspan : script.length + (stream.drop count).length ≤ script.length + stream.length := by
    rw [List.length_drop]
    omega
  cases stream with
  | cons b stream => exact ⟨hspan, fun bytes h => by cases h; exact List.length_take_le ..⟩
  | nil =>
    cases failure with
    | none => exact ⟨hspan, fun bytes h => by cases h; exact List.length_take_le ..⟩
    | some reason => exact ⟨Nat.le_refl _, fun bytes h => by cases h⟩

private theorem read_le (room : Nat) (r : Reader) :
    (r.read room).2.span ≤ r.span ∧
      ∀ bytes, (r.read room).1 = .piece bytes → bytes.length ≤ room := by
  obtain ⟨stream, script, failure⟩ := r
  cases script with
  | nil => exact deliver_le room _
  | cons event script =>
    have hlater : span ⟨stream, script, failure⟩ ≤ span ⟨stream, event :: script, failure⟩ := by
      simp [span]
    cases event with
    | deliver limit =>
      obtain ⟨hspan, hbytes⟩ := deliver_le (min (max limit 1) room) ⟨stream, script, failure⟩
      exact ⟨Nat.le_trans hspan hlater, fun bytes h =>
        Nat.le_trans (hbytes bytes h) (Nat.min_le_right _ _)⟩
    | interrupted => exact ⟨hlater, fun bytes h => by cases h⟩
    | failed reason => exact ⟨hlater, fun bytes h => by cases h⟩

end Reader

namespace Window

variable {w t u : Window} {α β : Type} {steps : Nat}

/-- The state of a window between two calls. -/
structure Sound (w : Window) : Prop where
  inv : Inv [] w
  pending_le : w.pending.length ≤ 3
  ended : w.exhausted → w.pending = [] ∧ w.reader.bytes = [] ∧ w.reader.failure = none

structure Later (w t : Window) : Prop where
  sound : Sound t
  capacity_eq : t.capacity = w.capacity
  span_le : t.reader.span ≤ w.reader.span

theorem Later.trans (h : Later w t) (h' : Later t u) : Later w u :=
  ⟨h'.sound, h'.capacity_eq.trans h.capacity_eq, Nat.le_trans h'.span_le h.span_le⟩

private theorem Later.refl (h : Sound w) : Later w w := ⟨h, rfl, Nat.le_refl _⟩

/-- Under guard a program does what it does otherwise. It raises no alarm and ends in a sound window. -/
def Guarded (x : Guard α) (y : EStateM SourceError Window α) (w : Window) : Prop :=
  match y w with
  | .ok a t => x w = .ok a t ∧ Later w t
  | .error e t => x w = .error (.refused e) t ∧ Later w t

private theorem guarded_ok {x : Guard α} {y : EStateM SourceError Window α} {a : α} (hx : x w = .ok a t)
    (hy : y w = .ok a t) (h : Later w t) : Guarded x y w := by
  rw [Guarded, hy]
  exact ⟨hx, h⟩

private theorem guarded_error {x : Guard α} {y : EStateM SourceError Window α} {e : SourceError}
    (hx : x w = .error (.refused e) t) (hy : y w = .error e t) (h : Later w t) : Guarded x y w := by
  rw [Guarded, hy]
  exact ⟨hx, h⟩

private theorem Guarded.after_later {x : Guard α} {y : EStateM SourceError Window α} (h : Guarded x y t)
    (hlater : Later w t) {x' : Guard α} {y' : EStateM SourceError Window α} (hx : x' w = x t)
    (hy : y' w = y t) : Guarded x' y' w := by
  unfold Guarded at h ⊢
  rw [hx, hy]
  cases hrun : y t with
  | ok a u =>
    rw [hrun] at h
    exact ⟨h.1, hlater.trans h.2⟩
  | error e u =>
    rw [hrun] at h
    exact ⟨h.1, hlater.trans h.2⟩

private theorem Guarded.bind {x : Guard α} {y : EStateM SourceError Window α} {f : α → Guard β}
    {g : α → EStateM SourceError Window β} (h : Guarded x y w)
    (hf : ∀ a t, Later w t → Guarded (f a) (g a) t) : Guarded (x >>= f) (y >>= g) w := by
  unfold Guarded at h
  cases hrun : y w with
  | ok a t =>
    rw [hrun] at h
    exact (hf a t h.2).after_later h.2 (Run.bind_of_ok h.1) (Run.bind_of_ok hrun)
  | error e t =>
    rw [hrun] at h
    exact guarded_error (Run.bind_of_error h.1) (Run.bind_of_error hrun) h.2

private theorem guarded_pure (h : Sound w) (a : α) : Guarded (pure a) (pure a) w := ⟨rfl, .refl h⟩

private theorem Guarded.map {x : Guard α} {y : EStateM SourceError Window α} (h : Guarded x y w)
    (f : α → β) : Guarded (f <$> x) (f <$> y) w := by
  rw [map_eq_pure_bind, map_eq_pure_bind]
  exact h.bind fun a t ht => guarded_pure ht.sound (f a)

namespace Guard

private theorem subtract_eq {a b : Nat} (h : b ≤ a) (w : Window) : subtract a b w = .ok (a - b) w := by
  rw [subtract, if_pos h]
  rfl

private theorem slice_eq {first last : Nat} (h : first ≤ last) (h' : last ≤ w.buffer.size) :
    slice first last w = .ok (w.buffer.extract first last) w := by
  rw [slice, Run.bind_of_ok Run.get_apply, if_pos ⟨h, h'⟩]
  rfl

private theorem charAt_eq {index : Nat} (h : index < w.buffer.size) :
    charAt index w = .ok w.buffer[index] w := by
  rw [charAt, Run.bind_of_ok Run.get_apply, Array.getElem?_eq_getElem h]
  rfl

private theorem pendingFrom_eq {index : Nat} (h : index ≤ w.pending.length) :
    pendingFrom index w = .ok (w.pending.drop index) w := by
  rw [pendingFrom, Run.bind_of_ok Run.get_apply, if_pos h]
  rfl

private theorem push_eq (c : Char) (w : Window) :
    push c w = .ok () { w with buffer := w.buffer.push c } := rfl

/-- Each round decodes a character, so there are no more rounds than there is room. -/
theorem decodeFrom_eq {room consumed : Nat} (hroom : w.capacity - w.buffer.size = room)
    (hsteps : room < steps) (hconsumed : consumed ≤ w.pending.length) :
    ∃ total ≤ w.pending.length,
      let decoded := decodeInto w.exhausted room w.buffer (w.pending.drop consumed)
      decodeFrom steps consumed w = .ok total { w with buffer := decoded.1 } ∧
        w.pending.drop total = decoded.2 := by
  induction room generalizing w steps consumed with
  | zero =>
    obtain ⟨steps, rfl⟩ : ∃ n, steps = n + 1 := ⟨steps - 1, by omega⟩
    refine ⟨consumed, hconsumed, ?_, rfl⟩
    rw [decodeFrom, Run.bind_of_ok Run.get_apply, if_neg (by omega)]
    rfl
  | succ room ih =>
    obtain ⟨steps, rfl⟩ : ∃ n, steps = n + 1 := ⟨steps - 1, by omega⟩
    rw [decodeFrom, Run.bind_of_ok Run.get_apply]
    by_cases hall : consumed = w.pending.length
    · refine ⟨consumed, hconsumed, ?_⟩
      rw [if_neg (by omega), hall, List.drop_length]
      simp [decodeInto, Utf8.first?]
    rw [if_pos (by omega), Run.bind_of_ok (pendingFrom_eq hconsumed)]
    cases hfirst : Utf8.first? (w.pending.drop consumed) with
    | some found =>
      obtain ⟨c, rest⟩ := found
      obtain ⟨front, hfront, -⟩ := Utf8.first?_some hfirst
      have hsuffix : rest <:+ w.pending.drop consumed := ⟨front, hfront.symm⟩
      have hrest : w.pending.drop (consumed + ((w.pending.drop consumed).length - rest.length)) = rest := by
        rw [← List.drop_drop, ← List.suffix_iff_eq_drop.mp hsuffix]
      have hsize : (w.buffer.push c).size = w.buffer.size + 1 := Array.size_push ..
      have hroom' : w.capacity - (w.buffer.push c).size = room := by omega
      have hsteps' : room < steps := by omega
      have hconsumed' : consumed + ((w.pending.drop consumed).length - rest.length) ≤ w.pending.length := by
        rw [List.length_drop]
        omega
      obtain ⟨total, htotal, hrun, hpending⟩ :=
        ih (w := { w with buffer := w.buffer.push c }) hroom' hsteps' hconsumed'
      dsimp only at htotal hrun hpending
      rw [hrest] at hrun hpending
      refine ⟨total, htotal, ?_, ?_⟩
      · dsimp only
        rw [Run.bind_of_ok (push_eq c w),
          Run.bind_of_ok (subtract_eq hsuffix.length_le _), decodeInto, hfirst]
        exact hrun
      · rw [decodeInto, hfirst]
        exact hpending
    | none =>
      have hne : w.pending.drop consumed ≠ [] := by
        simp only [ne_eq, List.drop_eq_nil_iff]
        omega
      by_cases he : w.exhausted = true
      · obtain ⟨steps, rfl⟩ : ∃ n, steps = n + 1 := ⟨steps - 1, by omega⟩
        refine ⟨w.pending.length, Nat.le_refl _, ?_, by simp [decodeInto, hfirst, he, hne]⟩
        dsimp only
        rw [if_pos he, Run.bind_of_ok (push_eq _ w), decodeFrom, Run.bind_of_ok Run.get_apply,
          if_neg (by simp)]
        simp [decodeInto, hfirst, he, hne]
      · have hdecoded : decodeInto w.exhausted (room + 1) w.buffer (w.pending.drop consumed) =
            (w.buffer, w.pending.drop consumed) := by simp [decodeInto, hfirst, he]
        refine ⟨consumed, hconsumed, ?_⟩
        dsimp only
        rw [hdecoded, if_neg he]
        exact ⟨rfl, rfl⟩

private theorem decodePending_eq (hsteps : w.capacity < steps) :
    decodePending steps w = .ok () w.decodePending := by
  have hroom : w.capacity - w.buffer.size < steps := Nat.lt_of_le_of_lt (Nat.sub_le ..) hsteps
  obtain ⟨total, htotal, hrun, hpending⟩ := decodeFrom_eq rfl hroom (Nat.zero_le _)
  have hrest : pendingFrom total { w with buffer := w.decodePending.buffer } =
      .ok (w.pending.drop total) { w with buffer := w.decodePending.buffer } := pendingFrom_eq htotal
  rw [decodePending, Run.bind_of_ok hrun]
  refine (Run.bind_of_ok hrest).trans ?_
  rw [hpending]
  rfl

end Guard

/-- The state of a window that fills: nothing can be decoded until more bytes come. -/
structure Waiting (w : Window) : Prop where
  sound : Sound w
  decoded : w.Decoded

private theorem Decoded.first?_eq_none (h : w.Decoded) (hroom : w.buffer.size < w.capacity) :
    Utf8.first? w.pending = none := by
  obtain ⟨room, hroom⟩ : ∃ room, w.capacity - w.buffer.size = room + 1 :=
    ⟨w.capacity - w.buffer.size - 1, by omega⟩
  cases hfirst : Utf8.first? w.pending with
  | none => rfl
  | some found =>
    obtain ⟨c, rest⟩ := found
    have hspec := decodeInto_spec w.exhausted room (w.buffer.push c) rest [] fun _ => rfl
    rw [Decoded, hroom, decodeInto, hfirst] at h
    dsimp only at h
    rw [h] at hspec
    obtain ⟨added, hbuffer, -⟩ := hspec
    have hlen := congrArg List.length hbuffer
    simp at hlen

private theorem decodePending_counts (w : Window) :
    ∃ added, w.decodePending.buffer.size = w.buffer.size + added ∧
      added + w.decodePending.pending.length ≤ w.pending.length := by
  have hspec := decodeInto_spec w.exhausted (w.capacity - w.buffer.size) w.buffer w.pending []
    fun _ => rfl
  obtain ⟨added, hbuffer, -, -, hlen, -⟩ := hspec
  refine ⟨added.length, ?_, hlen⟩
  rw [← Array.length_toList, decodePending, hbuffer, List.length_append, Array.length_toList]

private theorem Sound.decodePending (h : Sound w) : Waiting w.decodePending := by
  obtain ⟨added, -, hlen⟩ := decodePending_counts w
  have hpending := h.pending_le
  refine ⟨⟨(decodePending_filled h.inv).inv, by omega, fun he => ?_⟩, w.decodePending_decoded⟩
  obtain ⟨hnil, hbytes, hfailure⟩ := h.ended he
  rw [hnil, List.length_nil] at hlen
  exact ⟨List.length_eq_zero_iff.mp (by omega), hbytes, hfailure⟩

private theorem Waiting.with_reader (h : Waiting w) (hexhausted : w.exhausted = false)
    (reader : Reader) :
    Waiting { w with reader } :=
  ⟨⟨{ h.sound.inv with ended := by simp [hexhausted], delivered := fun _ => rfl },
    h.sound.pending_le, by simp [hexhausted]⟩, h.decoded⟩

private theorem Waiting.with_piece (h : Waiting w) {bytes : List UInt8} {reader : Reader}
    (hroom : w.buffer.size < w.capacity)
    (hread : w.reader.read (w.capacity - w.buffer.size) = (.piece bytes, reader)) :
    let t := decodePending { w with
      reader, pending := w.pending ++ bytes, exhausted := bytes.isEmpty }
    Waiting t ∧ (t.exhausted ∨ reader.span < w.reader.span) := by
  intro t
  obtain ⟨hbytes, hfailure, hend, hlt⟩ := Reader.read_piece (by omega) hread
  have hlen : bytes.length ≤ w.capacity - w.buffer.size := by
    have hle := (w.reader.read_le (w.capacity - w.buffer.size)).2 bytes
    rw [hread] at hle
    exact hle rfl
  have hends : bytes = [] → reader.bytes = [] ∧ reader.failure = none := fun hnil =>
    ⟨(List.append_eq_nil_iff.mp (hbytes ▸ (hend hnil).1)).2, hfailure.trans (hend hnil).2⟩
  have hread' : Inv [] { w with
      reader, pending := w.pending ++ bytes, exhausted := bytes.isEmpty } :=
    { h.sound.inv with
      ended := fun he => ⟨(hends (List.isEmpty_iff.mp he)).1, rfl⟩, delivered := fun _ => rfl }
  have hinv : Inv [] t := (decodePending_filled hread').inv
  have hdecoded : t.Decoded := decodePending_decoded _
  refine ⟨⟨⟨hinv, ?_, fun he => ?_⟩, hdecoded⟩, ?_⟩
  · by_cases hfull : t.buffer.size < t.capacity
    · exact Utf8.length_le_of_first?_eq_none (hdecoded.first?_eq_none hfull)
    · obtain ⟨added, hsize, hcount⟩ := decodePending_counts
        { w with reader, pending := w.pending ++ bytes, exhausted := bytes.isEmpty }
      have hcapacity : t.capacity = w.capacity := rfl
      have hpending := h.sound.pending_le
      rw [List.length_append] at hcount
      change t.buffer.size = w.buffer.size + added at hsize
      change added + t.pending.length ≤ _ at hcount
      omega
  · have hnil : bytes = [] := List.isEmpty_iff.mp he
    refine ⟨?_, hends hnil⟩
    obtain ⟨room, hroom'⟩ : ∃ room, w.capacity - w.buffer.size = room + 1 :=
      ⟨w.capacity - w.buffer.size - 1, by omega⟩
    have hfirst := h.decoded.first?_eq_none hroom
    simp only [t, Window.decodePending, hnil, hroom', List.append_nil, decodeInto, hfirst]
    by_cases hpending : w.pending = []
    · simp [hpending]
    · simp [hpending]
  · by_cases hnil : bytes = []
    · exact .inl (by simp [t, Window.decodePending, hnil])
    · exact .inr (hlt hnil)

private theorem Guard.read_eq (h : w.buffer.size < w.capacity) :
    Guard.read w = .ok (w.reader.read (w.capacity - w.buffer.size)).1
      { w with reader := (w.reader.read (w.capacity - w.buffer.size)).2 } := by
  rw [Guard.read, Run.bind_of_ok Run.get_apply, Run.bind_of_ok (subtract_eq (Nat.le_of_lt h) w),
    if_neg (by omega)]
  rfl

private theorem Guard.pull_of_room (he : w.exhausted = false) (hroom : w.buffer.size < w.capacity)
    (steps rounds : Nat) :
    Guard.pull steps (rounds + 1) w =
      match w.reader.read (w.capacity - w.buffer.size) with
      | (.interrupted, reader) => Guard.pull steps rounds { w with reader }
      | (.failed reason, reader) => .error (.refused (.unreadable reason)) { w with reader }
      | (.piece bytes, reader) =>
        (Guard.decodePending steps >>= fun _ => Guard.pull steps rounds) { w with
          reader, pending := w.pending ++ bytes, exhausted := bytes.isEmpty } := by
  have hgo : ¬(w.exhausted || decide (w.capacity ≤ w.buffer.size)) = true := by simpa [he] using hroom
  rw [pull, Run.bind_of_ok Run.get_apply, if_neg hgo, Run.bind_of_ok (read_eq hroom)]
  cases w.reader.read (w.capacity - w.buffer.size) with
  | mk result reader => cases result <;> rfl

/-- Each round but the last one uses up a step of the reader, or finds the end of input. -/
theorem pull_guarded (h : Waiting w) (hsteps : w.capacity < steps) {rounds fuel : Nat}
    (hrounds : 0 < rounds) (hspan : w.exhausted ∨ w.reader.span + 1 < rounds)
    (hfuel : w.exhausted ∨ w.reader.span < fuel) : Guarded (Guard.pull steps rounds) (pull fuel) w := by
  induction rounds generalizing w fuel with
  | zero => exact absurd hrounds (Nat.lt_irrefl 0)
  | succ rounds ih =>
    by_cases hstop : (w.exhausted || decide (w.capacity ≤ w.buffer.size)) = true
    · refine guarded_ok (a := ()) ?_ ?_ (.refl h.sound)
      · rw [Guard.pull, Run.bind_of_ok Run.get_apply, if_pos hstop]
        rfl
      · cases fuel with
        | zero => rfl
        | succ fuel => rw [pull_succ, if_pos hstop]
    have hgo := hstop
    simp only [Bool.or_eq_true, decide_eq_true_eq, not_or, Bool.not_eq_true, Nat.not_le] at hgo
    obtain ⟨he, hroom⟩ := hgo
    simp only [he, Bool.false_eq_true, false_or] at hspan hfuel
    obtain ⟨fuel, rfl⟩ : ∃ n, fuel = n + 1 := ⟨fuel - 1, by omega⟩
    have hle := (w.reader.read_le (w.capacity - w.buffer.size)).1
    have hx := Guard.pull_of_room he hroom steps rounds
    have hy := pull_succ fuel w
    rw [if_neg hstop] at hy
    cases hread : w.reader.read (w.capacity - w.buffer.size) with
    | mk result reader =>
      rw [hread] at hle hx hy
      have hlater : Later w { w with reader } := ⟨(h.with_reader he reader).sound, rfl, hle⟩
      cases result with
      | failed reason => exact guarded_error hx hy hlater
      | interrupted =>
        have hlt := (Reader.read_interrupted hread).2.2
        have hmore : Guarded (Guard.pull steps rounds) (pull fuel) { w with reader } :=
          ih (h.with_reader he reader) hsteps (by omega) (.inr (by dsimp only; omega))
            (.inr (by dsimp only; omega))
        exact hmore.after_later hlater hx hy
      | piece bytes =>
        obtain ⟨hwaiting, hlt⟩ := h.with_piece hroom hread
        have hmore : Guarded (Guard.pull steps rounds) (pull fuel) _ :=
          ih hwaiting hsteps (by omega)
            (hlt.imp_right fun hlt => by simp only [Window.decodePending]; omega)
            (hlt.imp_right fun hlt => by simp only [Window.decodePending]; omega)
        have hlater' : Later w (decodePending { w with
            reader, pending := w.pending ++ bytes, exhausted := bytes.isEmpty }) :=
          ⟨hwaiting.sound, rfl, hle⟩
        exact hmore.after_later hlater'
          (hx.trans (Run.bind_of_ok (Guard.decodePending_eq hsteps))) hy

def Suffices (w : Window) (steps : Nat) : Prop := w.capacity + w.reader.span + 2 ≤ steps

theorem Later.suffices (h : Later w t) (hw : Suffices w steps) : Suffices t steps := by
  have hcapacity := h.capacity_eq
  have hspan := h.span_le
  unfold Suffices at *
  omega

theorem fill_guarded (h : Sound w) (hsteps : Suffices w steps) :
    Guarded (Guard.fill steps) fill w := by
  unfold Suffices at hsteps
  have hspan : w.decodePending.reader.span = w.reader.span := rfl
  have hcapacity : w.decodePending.capacity = w.capacity := rfl
  have hpull : Guarded (Guard.pull steps steps) (pull (w.decodePending.reader.span + 1))
      w.decodePending :=
    pull_guarded h.decodePending (by omega) (by omega) (.inr (by omega)) (.inr (by omega))
  have hx : Guard.fill steps w = Guard.pull steps steps w.decodePending :=
    Run.bind_of_ok (Guard.decodePending_eq (by omega))
  have hy : fill w = pull (w.decodePending.reader.span + 1) w.decodePending := rfl
  have hlater : Later w w.decodePending := ⟨h.decodePending.sound, rfl, Nat.le_refl _⟩
  exact hpull.after_later hlater hx hy

private theorem Guard.compact_eq (h : Inv [] w) : Guard.compact w = .ok () w.compact := by
  rw [compact, Run.bind_of_ok Run.get_apply,
    Run.bind_of_ok (slice_eq (Nat.le_trans h.start_le h.current_le) (Nat.le_refl _)),
    Run.bind_of_ok (subtract_eq h.start_le w)]
  rfl

private theorem compact_later (h : Sound w) : Later w w.compact :=
  ⟨⟨(compact_kept h.inv).inv, h.pending_le, h.ended⟩, rfl, Nat.le_refl _⟩

private theorem Guard.ensure_succ (h : Inv [] w) (steps l rounds : Nat) :
    Guard.ensure steps l (rounds + 1) w =
      if w.current + l < w.buffer.size then .ok true w
      else if w.exhausted && w.pending.isEmpty then .ok false w
      else if w.capacity ≤ w.current + l - w.tokenStart then
        .error (.refused
          (.tokenTooLong w.capacity ((w.buffer.toList.drop w.tokenStart).take 32))) w
      else (Guard.fill steps >>= fun _ => Guard.ensure steps l rounds) w.compact := by
  have hstart := h.start_le
  have hcurrent := h.current_le
  rw [ensure, Run.bind_of_ok Run.get_apply]
  split
  · rfl
  split
  · rfl
  rw [Run.bind_of_ok (subtract_eq (by omega) w)]
  split
  · rw [Run.bind_of_ok (slice_eq (by omega) (Nat.le_refl _)), ← toList_compact]
    rfl
  · rw [Run.bind_of_ok (compact_eq h)]

/-- After one filling the character is resident or known not to come, so the loop has two rounds at
most. -/
theorem ensure_guarded (h : Sound w) (hsteps : Suffices w steps) (l rounds : Nat) :
    Guarded (Guard.ensure steps l (rounds + 2)) (ensure l) w := by
  have hx := Guard.ensure_succ h.inv steps l (rounds + 1)
  have hy := ensure_eq l w
  split at hx
  · next hl =>
    rw [if_pos hl] at hy
    exact guarded_ok hx hy (.refl h)
  next hl =>
  rw [if_neg hl] at hy
  split at hx
  · next hend =>
    rw [if_pos hend] at hy
    exact guarded_ok hx hy (.refl h)
  next hend =>
  rw [if_neg hend] at hy
  split at hx
  · next hfull =>
    rw [if_pos hfull] at hy
    exact guarded_error hx hy (.refl h)
  next hfull =>
  rw [if_neg hfull] at hy
  have hcompact := compact_later h
  have hguarded := fill_guarded hcompact.sound (hcompact.suffices hsteps)
  have hpulled := fill_pulled hcompact.sound.inv
  unfold Guarded at hguarded
  cases hfill : fill w.compact with
  | error e t =>
    rw [hfill] at hguarded hy
    exact guarded_error (hx.trans (Run.bind_of_error hguarded.1)) hy (hcompact.trans hguarded.2)
  | ok a t =>
    rw [hfill] at hguarded hpulled hy
    obtain ⟨hrun, hlater⟩ := hguarded
    have hlater' := hcompact.trans hlater
    refine guarded_ok (hx.trans ((Run.bind_of_ok hrun).trans ?_)) hy hlater'
    rw [Guard.ensure_succ hlater.sound.inv]
    cases hpulled with
    | done hfilled hdone =>
      have hcurrent : t.current = w.current - w.tokenStart := hfilled.current_eq
      have hcapacity := hlater'.capacity_eq
      have hstart := h.inv.start_le
      by_cases hl' : t.current + l < t.buffer.size
      · rw [if_pos hl', decide_eq_true hl']
      · -- the window is not full, for what is asked for would be resident
        obtain ⟨he, hpending⟩ := hdone.resolve_left (by omega)
        rw [if_neg hl', if_pos (by simp [he, hpending]), decide_eq_false hl']

private theorem resident_of_ensure {l : Nat} (hrun : ensure l w = .ok true t) :
    t.current + l < t.buffer.size := by
  rw [ensure_eq] at hrun
  split at hrun
  · next hl =>
    obtain ⟨-, rfl⟩ := EStateM.Result.ok.inj hrun
    exact hl
  split at hrun
  · cases hrun
  split at hrun
  · cases hrun
  split at hrun
  · obtain ⟨hl, rfl⟩ := EStateM.Result.ok.inj hrun
    exact of_decide_eq_true hl
  · cases hrun

private theorem look_guarded (h : Sound w) (hsteps : Suffices w steps) (l : Nat) :
    Guarded (Guard.look steps l) (look l) w := by
  obtain ⟨rounds, rfl⟩ : ∃ n, steps = n + 2 := ⟨steps - 2, by unfold Suffices at hsteps; omega⟩
  have hensure := ensure_guarded h hsteps l rounds
  have hy := look_eq l w
  unfold Guarded at hensure
  cases hrun : ensure l w with
  | error e t =>
    rw [hrun] at hensure hy
    exact guarded_error (Run.bind_of_error hensure.1) hy hensure.2
  | ok found t =>
    rw [hrun] at hensure hy
    obtain ⟨hguard, hlater⟩ := hensure
    cases found with
    | false => exact guarded_ok (Run.bind_of_ok hguard) hy hlater
    | true =>
      have hl := resident_of_ensure hrun
      dsimp only at hy
      rw [Array.getElem?_eq_getElem hl] at hy
      refine guarded_ok ((Run.bind_of_ok hguard).trans ?_) hy hlater
      rw [if_pos rfl, Run.bind_of_ok Run.get_apply, Run.bind_of_ok (Guard.charAt_eq hl)]
      rfl

theorem Sound.source_inv (h : Sound w) : (source [] w.capacity w.reader.MayFail).inv w :=
  ⟨h.inv, rfl, fun _ h => h⟩

private theorem Guard.advance_eq (steps : Nat) (w : Window) :
    Guard.advance steps w =
      match Guard.look steps 0 { w with memo := none } with
      | .ok (some c) t => .ok (some c) { t with current := t.current + 1 }
      | .ok none t => .ok none t
      | .error e t => .error e t := by
  change (Guard.look steps 0 >>= fun next => do
    if next.isSome then modify fun w => { w with current := w.current + 1 }
    return next) { w with memo := none } = _
  cases hlook : Guard.look steps 0 { w with memo := none } with
  | ok a t =>
    rw [Run.bind_of_ok hlook]
    cases a <;> rfl
  | error e t => rw [Run.bind_of_error hlook]

private theorem advance_guarded (h : Sound w) (hsteps : Suffices w steps) :
    Guarded (Guard.advance steps) advance w := by
  have hforget : Later w { w with memo := none } :=
    ⟨⟨{ h.inv with memo_eq := by simp }, h.pending_le, h.ended⟩, rfl, Nat.le_refl _⟩
  have hlook := look_guarded hforget.sound (hforget.suffices hsteps) 0
  have htaken := advance_taken h.inv
  have hx := Guard.advance_eq steps w
  have hy := Window.advance_eq w
  unfold Guarded at hlook
  cases hrun : look 0 { w with memo := none } with
  | error e t =>
    rw [hrun] at hlook hy
    rw [hlook.1] at hx
    exact guarded_error hx hy (hforget.trans hlook.2)
  | ok next t =>
    rw [hrun] at hlook hy
    rw [hlook.1] at hx
    obtain ⟨hsound, hcapacity, hspan⟩ := hforget.trans hlook.2
    cases next with
    | none => exact guarded_ok hx hy ⟨hsound, hcapacity, hspan⟩
    | some c =>
      rw [hy] at htaken
      cases htaken with
      | char hrest htook =>
        exact guarded_ok hx hy ⟨⟨htook.inv, hsound.pending_le, hsound.ended⟩, hcapacity, hspan⟩

private theorem Guard.currentToken_eq (h : Inv [] w) :
    Guard.currentToken w = .ok w.currentToken.1 w.currentToken.2 := by
  rw [currentToken, Run.bind_of_ok Run.get_apply, Run.bind_of_ok (slice_eq h.start_le h.current_le),
    Window.currentToken]
  cases w.memo <;> rfl

private theorem Guard.startToken_eq (h : Inv [] w) : Guard.startToken w = .ok () w.startToken := by
  rw [startToken, Run.bind_of_ok Run.get_apply, Run.bind_of_ok (slice_eq h.start_le h.current_le)]
  rfl

private theorem currentToken_later (h : Sound w) : Later w w.currentToken.2 := by
  have hinv := ((source_lawful [] w.capacity w.reader.MayFail).currentToken h.source_inv).2.1.1
  change Inv [] w.currentToken.2 at hinv
  unfold currentToken at hinv ⊢
  cases hmemo : w.memo with
  | some text => exact .refl h
  | none =>
    rw [hmemo] at hinv
    exact ⟨⟨hinv, h.pending_le, h.ended⟩, rfl, Nat.le_refl _⟩

private theorem startToken_later (h : Sound w) : Later w w.startToken :=
  ⟨⟨((source_lawful [] w.capacity w.reader.MayFail).startToken h.source_inv).1.1, h.pending_le,
    h.ended⟩, rfl, Nat.le_refl _⟩

/-- Under guard a call does what it does otherwise. -/
theorem answer_guarded (h : Sound w) (hsteps : Suffices w steps) (call : Source.Call) :
    Guarded (Guard.answer steps call) call.answer w := by
  cases call with
  | advance => exact (advance_guarded h hsteps).map Source.Answer.char
  | peek => exact (look_guarded h hsteps 0).map Source.Answer.char
  | peekNext => exact (look_guarded h hsteps 1).map Source.Answer.char
  | advanceIf expected =>
    have hboth : Guarded (do
        if (← Guard.look steps 0) == some expected then Guard.advance steps else pure none)
        (Source.advanceIf expected) w := by
      refine (look_guarded h hsteps 0).bind fun next t ht => ?_
      split
      · exact advance_guarded ht.sound (ht.suffices hsteps)
      · exact guarded_pure ht.sound none
    exact hboth.map Source.Answer.char
  | isAtEnd =>
    have hboth : Guarded (do return (← Guard.look steps 0).isNone) Source.isAtEnd w :=
      (look_guarded h hsteps 0).bind fun next t ht => guarded_pure ht.sound next.isNone
    exact hboth.map Source.Answer.flag
  | currentToken =>
    exact guarded_ok (Run.map_of_ok (Guard.currentToken_eq h.inv)) rfl (currentToken_later h)
  | startToken =>
    exact guarded_ok (Run.bind_of_ok (Guard.startToken_eq h.inv)) rfl (startToken_later h)
  | tokenOffset => exact guarded_ok rfl rfl (.refl h)

theorem after_later (h : Sound w) (calls : List Source.Call) : Later w (Source.after calls w) := by
  induction calls generalizing w with
  | nil => exact .refl h
  | cons call calls ih =>
    have hguarded := answer_guarded h (Nat.le_refl _) call
    unfold Guarded at hguarded
    rw [Source.after]
    cases hrun : call.answer w with
    | ok a t =>
      rw [hrun] at hguarded
      exact hguarded.2.trans (ih hguarded.2.sound)
    | error e t =>
      rw [hrun] at hguarded
      exact hguarded.2.trans (ih hguarded.2.sound)

end Window
end Copione
