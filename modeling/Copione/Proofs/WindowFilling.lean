import Copione.Proofs.LossyDecoding
import Copione.Proofs.SourceView
import Copione.Source.Window
/-!
# Filling a window

A window shows a place in the text that its stream stands for: the token in its buffer, and
then the resident characters followed by what the bytes behind them decode to. Bytes that the
reader never delivers, because it breaks down first, count as part of the stream. Filling the
window does not change what it shows, also when a read fails half way.
-/
namespace Copione

namespace Reader

/-- Some read to come may fail with `reason`. -/
def MayFail (r : Reader) (reason : String) : Prop :=
  r.failure = some reason ∨ .failed reason ∈ r.script

private theorem deliver_piece {r t : Reader} {count : Nat} {bytes : List UInt8}
    (hcount : 0 < count) (h : r.deliver count = (.piece bytes, t)) :
    r.bytes = bytes ++ t.bytes ∧ t.failure = r.failure ∧ t.script = r.script ∧
      (bytes = [] → r.bytes = [] ∧ r.failure = none) := by
  obtain ⟨stream, script, failure⟩ := r
  cases stream with
  | nil =>
    cases failure with
    | none =>
      simp only [deliver, Prod.mk.injEq, ReadResult.piece.injEq] at h
      obtain ⟨rfl, rfl⟩ := h
      simp
    | some reason => simp [deliver] at h
  | cons b stream =>
    simp only [deliver, Prod.mk.injEq, ReadResult.piece.injEq] at h
    obtain ⟨rfl, rfl⟩ := h
    refine ⟨(List.take_append_drop _ _).symm, rfl, rfl, ?_⟩
    intro hnil
    have hlen := congrArg List.length hnil
    simp only [List.length_take, List.length_cons, List.length_nil] at hlen
    omega

private theorem deliver_failed {r t : Reader} {count : Nat} {reason : String}
    (h : r.deliver count = (.failed reason, t)) : t = r ∧ r.failure = some reason := by
  obtain ⟨stream, script, failure⟩ := r
  cases stream <;> cases failure <;> simp [deliver] at h
  obtain ⟨rfl, rfl⟩ := h
  exact ⟨rfl, rfl⟩

private theorem deliver_not_interrupted {r t : Reader} {count : Nat} :
    r.deliver count ≠ (.interrupted, t) := by
  obtain ⟨stream, script, failure⟩ := r
  cases stream <;> cases failure <;> simp [deliver]

theorem read_piece {r t : Reader} {room : Nat} {bytes : List UInt8} (hroom : 0 < room)
    (h : r.read room = (.piece bytes, t)) :
    r.bytes = bytes ++ t.bytes ∧ t.failure = r.failure ∧
      (bytes = [] → r.bytes = [] ∧ r.failure = none) ∧ (bytes ≠ [] → t.span < r.span) := by
  obtain ⟨stream, script, failure⟩ := r
  have hshorter (hstream : stream = bytes ++ t.bytes) (hne : bytes ≠ []) :
      t.bytes.length < stream.length := by
    have hpos := List.length_pos_iff.mpr hne
    rw [hstream, List.length_append]
    omega
  cases script with
  | nil =>
    obtain ⟨hbytes, hfailure, hscript, hend⟩ := deliver_piece hroom h
    refine ⟨hbytes, hfailure, hend, ?_⟩
    intro hne
    have := hshorter hbytes hne
    simp only [span, hscript]
    omega
  | cons event script =>
    cases event with
    | deliver limit =>
      obtain ⟨hbytes, hfailure, hscript, hend⟩ := deliver_piece (by omega) h
      refine ⟨hbytes, hfailure, hend, ?_⟩
      intro hne
      have := hshorter hbytes hne
      simp only [span, hscript, List.length_cons]
      omega
    | interrupted => simp [read] at h
    | failed reason => simp [read] at h

theorem read_interrupted {r t : Reader} {room : Nat} (h : r.read room = (.interrupted, t)) :
    t.bytes = r.bytes ∧ t.failure = r.failure ∧ t.span < r.span := by
  obtain ⟨stream, script, failure⟩ := r
  cases script with
  | nil => exact absurd h deliver_not_interrupted
  | cons event script =>
    cases event with
    | deliver limit => exact absurd h deliver_not_interrupted
    | interrupted =>
      simp only [read, Prod.mk.injEq, true_and] at h
      subst h
      simp [span]
    | failed reason => simp [read] at h

private theorem read_failed {r t : Reader} {room : Nat} {reason : String}
    (h : r.read room = (.failed reason, t)) : t.bytes = r.bytes ∧ t.failure = r.failure := by
  obtain ⟨stream, script, failure⟩ := r
  cases script with
  | nil =>
    obtain ⟨rfl, -⟩ := deliver_failed h
    exact ⟨rfl, rfl⟩
  | cons event script =>
    cases event with
    | deliver limit =>
      obtain ⟨rfl, -⟩ := deliver_failed h
      exact ⟨rfl, rfl⟩
    | interrupted => simp [read] at h
    | failed reason =>
      simp only [read, Prod.mk.injEq, ReadResult.failed.injEq] at h
      obtain ⟨-, rfl⟩ := h
      exact ⟨rfl, rfl⟩

private theorem deliver_keeps (count : Nat) (r : Reader) :
    (r.deliver count).2.failure = r.failure ∧ (r.deliver count).2.script = r.script := by
  obtain ⟨stream, script, failure⟩ := r
  cases stream <;> cases failure <;> exact ⟨rfl, rfl⟩

theorem MayFail.of_read {r t : Reader} {room : Nat} {result : ReadResult}
    (h : r.read room = (result, t)) (reason : String) (ht : t.MayFail reason) :
    r.MayFail reason := by
  obtain ⟨stream, script, failure⟩ := r
  obtain rfl : (read room ⟨stream, script, failure⟩).2 = t := congrArg Prod.snd h
  cases script with
  | nil =>
    obtain ⟨hfailure, hscript⟩ := deliver_keeps room ⟨stream, [], failure⟩
    rwa [MayFail, read, hfailure, hscript] at ht
  | cons event script =>
    cases event with
    | deliver limit =>
      obtain ⟨hfailure, hscript⟩ := deliver_keeps (min (max limit 1) room) ⟨stream, script, failure⟩
      rw [MayFail, read, hfailure, hscript] at ht
      exact ht.imp_right (List.mem_cons_of_mem _)
    | interrupted => exact ht.imp_right (List.mem_cons_of_mem _)
    | failed reason => exact ht.imp_right (List.mem_cons_of_mem _)

theorem mayFail_of_failed {r t : Reader} {room : Nat} {reason : String}
    (h : r.read room = (.failed reason, t)) : r.MayFail reason := by
  obtain ⟨stream, script, failure⟩ := r
  cases script with
  | nil => exact .inl (deliver_failed h).2
  | cons event script =>
    cases event with
    | deliver limit => exact .inl (deliver_failed h).2
    | interrupted => simp [read] at h
    | failed reason =>
      simp only [read, Prod.mk.injEq, ReadResult.failed.injEq] at h
      exact .inr (by simp [h.1])

end Reader

namespace Window

/-- Bytes that are read but not decoded, and those still to be read. -/
def supply (w : Window) : List UInt8 := w.pending ++ w.reader.bytes

/-- Decoding moves characters from the bytes to the buffer. -/
theorem decodeInto_spec (exhausted : Bool) (room : Nat) (buffer : Array Char)
    (bytes later : List UInt8) (hend : exhausted → later = []) :
    let (buffer', bytes') := decodeInto exhausted room buffer bytes
    ∃ added, buffer'.toList = buffer.toList ++ added ∧
      added ++ Utf8.decode (bytes' ++ later) = Utf8.decode (bytes ++ later) ∧
      added.length ≤ room ∧ added.length + bytes'.length ≤ bytes.length ∧
      (exhausted → added.length = room ∨ bytes' = []) := by
  induction room generalizing buffer bytes with
  | zero => exact ⟨[], by simp⟩
  | succ room ih =>
    rw [decodeInto]
    cases h : Utf8.first? bytes with
    | some found =>
      obtain ⟨c, rest⟩ := found
      obtain ⟨added, hbuffer, htext, hroom, hlen, hdone⟩ := ih (buffer.push c) rest
      have hlt := Utf8.first?_length_lt h
      refine ⟨c :: added, ?_, ?_, ?_, ?_, ?_⟩
      · rw [hbuffer, Array.toList_push, List.append_assoc, List.singleton_append]
      · rw [Utf8.decode_of_some (Utf8.first?_append later h), List.cons_append, htext]
      · rw [List.length_cons]
        omega
      · rw [List.length_cons]
        omega
      · intro he
        rw [List.length_cons]
        exact (hdone he).imp_left (by omega)
    | none =>
      simp only []
      split
      · next hcut =>
        simp only [Bool.and_eq_true, Bool.not_eq_true', List.isEmpty_eq_false_iff] at hcut
        obtain ⟨he, hne⟩ := hcut
        have hpos := List.length_pos_iff.mpr hne
        refine ⟨[Utf8.replacement], by simp, ?_, by simp, ?_, by simp⟩
        · rw [hend he, List.append_nil, List.append_nil, Utf8.decode_of_none h hne]
          rfl
        · simpa [Nat.succ_le_iff] using hpos
      · next hcut =>
        refine ⟨[], by simp, rfl, by simp, by simp, ?_⟩
        intro he
        right
        simpa [he] using hcut

/-- The state of a window over a stream of which `lost` is never delivered. -/
structure Inv (lost : List UInt8) (w : Window) : Prop where
  capacity_pos : 0 < w.capacity
  start_le : w.tokenStart ≤ w.current
  current_le : w.current ≤ w.buffer.size
  size_le : w.buffer.size ≤ w.capacity
  memo_eq : ∀ text, w.memo = some text → text = String.ofList w.token
  ended : w.exhausted → w.reader.bytes = [] ∧ lost = []
  delivered : w.reader.failure = none → lost = []

def view (lost : List UInt8) (w : Window) : Cursor :=
  ⟨w.token.reverse, w.buffer.toList.drop w.current ++ Utf8.decode (w.supply ++ lost),
    w.tokenOffset⟩

theorem token_eq (w : Window) :
    w.token = (w.buffer.toList.drop w.tokenStart).take (w.current - w.tokenStart) := by
  simp [token, List.extract]

theorem Inv.token_length {lost : List UInt8} {w : Window} (h : Inv lost w) :
    w.token.length = w.current - w.tokenStart := by
  have h1 := h.start_le
  have h2 := h.current_le
  rw [token_eq, List.length_take, List.length_drop, Array.length_toList]
  omega

/-- `t` shows what `w` shows, and has nothing more to come. -/
structure Filled (lost : List UInt8) (w t : Window) : Prop where
  inv : Inv lost t
  view_eq : view lost t = view lost w
  remaining_le : Source.remaining t ≤ Source.remaining w
  capacity_eq : t.capacity = w.capacity
  start_eq : t.tokenStart = w.tokenStart
  current_eq : t.current = w.current
  memo_eq : t.memo = w.memo
  mayFail_of : ∀ reason, t.reader.MayFail reason → w.reader.MayFail reason

variable {lost : List UInt8} {w t u : Window}

theorem Filled.refl (h : Inv lost w) : Filled lost w w :=
  ⟨h, rfl, Nat.le_refl _, rfl, rfl, rfl, rfl, fun _ h => h⟩

private theorem Filled.trans (h : Filled lost w t) (h' : Filled lost t u) : Filled lost w u :=
  ⟨h'.inv, h'.view_eq.trans h.view_eq, Nat.le_trans h'.remaining_le h.remaining_le,
    h'.capacity_eq.trans h.capacity_eq, h'.start_eq.trans h.start_eq,
    h'.current_eq.trans h.current_eq, h'.memo_eq.trans h.memo_eq,
    fun reason ht => h.mayFail_of reason (h'.mayFail_of reason ht)⟩

private theorem filled_of_added (h : Inv lost w) {buffer : Array Char} {pending : List UInt8}
    {exhausted : Bool} {reader : Reader} {added : List Char}
    (hbuffer : buffer.toList = w.buffer.toList ++ added)
    (htext : added ++ Utf8.decode (pending ++ reader.bytes ++ lost) =
      Utf8.decode (w.supply ++ lost))
    (hsize : buffer.size ≤ w.capacity)
    (hlen : added.length + (pending ++ reader.bytes).length ≤ w.supply.length)
    (hended : exhausted → reader.bytes = [] ∧ lost = [])
    (hfailure : reader.failure = w.reader.failure)
    (hmay : ∀ reason, reader.MayFail reason → w.reader.MayFail reason) :
    Filled lost w { w with buffer, pending, exhausted, reader } := by
  have h1 := h.current_le
  have hsize' : buffer.size = w.buffer.size + added.length := by
    rw [← Array.length_toList, hbuffer, List.length_append, Array.length_toList]
  have htoken : token { w with buffer, pending, exhausted, reader } = w.token := by
    have h2 := h.start_le
    rw [token_eq, token_eq]
    simp only [hbuffer]
    rw [List.drop_append_of_le_length (by rw [Array.length_toList]; omega),
      List.take_append_of_le_length (by rw [List.length_drop, Array.length_toList]; omega)]
  refine ⟨⟨h.capacity_pos, h.start_le, by simp only []; omega, hsize, ?_, hended, ?_⟩, ?_, ?_, rfl,
    rfl, rfl, rfl, hmay⟩
  · rw [htoken]
    exact h.memo_eq
  · intro hnone
    exact h.delivered (hfailure ▸ hnone)
  · have hrest : buffer.toList.drop w.current ++ Utf8.decode (pending ++ reader.bytes ++ lost) =
        w.buffer.toList.drop w.current ++ Utf8.decode (w.supply ++ lost) := by
      rw [hbuffer, List.drop_append_of_le_length (by rw [Array.length_toList]; omega),
        List.append_assoc, htext]
    simp only [view, htoken, supply] at hrest ⊢
    rw [hrest]
  · simp only [supply, List.length_append, Source.remaining] at hlen ⊢
    omega

private theorem filled_of_supply (h : Inv lost w) {pending : List UInt8} {exhausted : Bool}
    {reader : Reader} (hsupply : pending ++ reader.bytes = w.supply)
    (hended : exhausted → reader.bytes = [] ∧ lost = [])
    (hfailure : reader.failure = w.reader.failure)
    (hmay : ∀ reason, reader.MayFail reason → w.reader.MayFail reason) :
    Filled lost w { w with pending, exhausted, reader } :=
  filled_of_added h (List.append_nil _).symm (by rw [hsupply, List.nil_append]) h.size_le
    (by simp [hsupply]) hended hfailure hmay

theorem decodePending_filled (h : Inv lost w) : Filled lost w w.decodePending := by
  have hspec := decodeInto_spec w.exhausted (w.capacity - w.buffer.size) w.buffer w.pending
    (w.reader.bytes ++ lost) (by intro he; simp [h.ended he])
  obtain ⟨added, hbuffer, htext, hroom, hlen, -⟩ := hspec
  have hsize := h.size_le
  refine filled_of_added h hbuffer (by simpa [supply] using htext) ?_ ?_ h.ended rfl (fun _ h => h)
  · rw [← Array.length_toList, hbuffer, List.length_append, Array.length_toList]
    omega
  · simp only [supply, List.length_append]
    omega

/-- At the end of input what is pending is decoded until the window is full. -/
private theorem decodePending_done (h : Inv lost w) (he : w.exhausted) :
    w.decodePending.buffer.size = w.capacity ∨ w.decodePending.pending = [] := by
  have hspec := decodeInto_spec w.exhausted (w.capacity - w.buffer.size) w.buffer w.pending
    (w.reader.bytes ++ lost) (by intro he; simp [h.ended he])
  obtain ⟨added, hbuffer, -, -, -, hdone⟩ := hspec
  have hsize := h.size_le
  refine (hdone he).imp_left ?_
  intro hfull
  rw [decodePending, ← Array.length_toList, hbuffer, List.length_append, Array.length_toList]
  omega

theorem pull_succ (fuel : Nat) (w : Window) :
    pull (fuel + 1) w =
      if w.exhausted || w.capacity ≤ w.buffer.size then .ok () w
      else
        match w.reader.read (w.capacity - w.buffer.size) with
        | (.interrupted, reader) => pull fuel { w with reader }
        | (.failed reason, reader) => .error (.unreadable reason) { w with reader }
        | (.piece bytes, reader) =>
          pull fuel { w with
            reader, pending := w.pending ++ bytes, exhausted := bytes.isEmpty }.decodePending := by
  rw [pull, Run.bind_of_ok Run.get_apply]
  split
  · rfl
  · cases hread : w.reader.read (w.capacity - w.buffer.size) with
    | mk result reader => cases result <;> rfl

/-- How filling a window ends: it is full or the input is at an end, or a read failed. -/
inductive Pulled (lost : List UInt8) (w : Window) : EStateM.Result SourceError Window Unit → Prop
  | done {t : Window} (hfilled : Filled lost w t)
    (hfull : t.buffer.size = t.capacity ∨ t.exhausted ∧ t.pending = []) : Pulled lost w (.ok () t)
  | failed {t : Window} {reason : String} (hfilled : Filled lost w t)
    (hreason : w.reader.MayFail reason) : Pulled lost w (.error (.unreadable reason) t)

private theorem Pulled.after_filled {r : EStateM.Result SourceError Window Unit}
    (h : Filled lost w t) (hr : Pulled lost t r) : Pulled lost w r := by
  cases hr with
  | done hfilled hfull => exact .done (h.trans hfilled) hfull
  | failed hfilled hreason => exact .failed (h.trans hfilled) (h.mayFail_of _ hreason)

/-- Each read uses up a step of the script or some of the bytes, or finds the end of input. -/
private theorem pull_pulled (fuel : Nat) (h : Inv lost w)
    (hfuel : w.exhausted ∨ w.reader.span < fuel)
    (hdone : w.exhausted → w.buffer.size = w.capacity ∨ w.pending = []) :
    Pulled lost w (pull fuel w) := by
  induction fuel generalizing w with
  | zero =>
    have he : w.exhausted := hfuel.resolve_right (Nat.not_lt_zero _)
    exact .done (.refl h) ((hdone he).imp_right (⟨he, ·⟩))
  | succ fuel ih =>
    rw [pull_succ]
    split
    · next hstop =>
      have hsize := h.size_le
      simp only [Bool.or_eq_true, decide_eq_true_eq] at hstop
      refine .done (.refl h) ?_
      rcases hstop with he | hfull
      · exact (hdone he).imp_right (⟨he, ·⟩)
      · exact .inl (by omega)
    · next hgo =>
      simp only [Bool.or_eq_true, decide_eq_true_eq, not_or, Bool.not_eq_true] at hgo
      have hspan : w.reader.span < fuel + 1 := by simpa [hgo.1] using hfuel
      have hroom : 0 < w.capacity - w.buffer.size := by omega
      split
      · next reader hread =>
        obtain ⟨hbytes, hfailure, hlt⟩ := Reader.read_interrupted hread
        have hstep : Filled lost w { w with reader } :=
          filled_of_supply h (by rw [hbytes, supply]) (by simp [hgo.1]) hfailure
            (Reader.MayFail.of_read hread)
        exact .after_filled hstep (ih hstep.inv (.inr (by simp only []; omega)) (by simp [hgo.1]))
      · next reason reader hread =>
        obtain ⟨hbytes, hfailure⟩ := Reader.read_failed hread
        have hstep : Filled lost w { w with reader } :=
          filled_of_supply h (by rw [hbytes, supply]) (by simp [hgo.1]) hfailure
            (Reader.MayFail.of_read hread)
        exact .failed hstep (Reader.mayFail_of_failed hread)
      · next bytes reader hread =>
        obtain ⟨hbytes, hfailure, hend, hlt⟩ := Reader.read_piece hroom hread
        have hstep : Filled lost w
            { w with reader, pending := w.pending ++ bytes, exhausted := bytes.isEmpty } := by
          refine filled_of_supply h (by rw [supply, hbytes, List.append_assoc]) ?_ hfailure
            (Reader.MayFail.of_read hread)
          intro hempty
          obtain ⟨hnil, hnone⟩ := hend (List.isEmpty_iff.mp hempty)
          exact ⟨(List.append_eq_nil_iff.mp (hbytes ▸ hnil)).2, h.delivered hnone⟩
        have hdecoded := decodePending_filled hstep.inv
        refine .after_filled (hstep.trans hdecoded) (ih hdecoded.inv ?_ ?_)
        · by_cases hnil : bytes = []
          · exact .inl (by simp [decodePending, hnil])
          · have := hlt hnil
            exact .inr (by simp only [decodePending]; omega)
        · intro he
          rw [hdecoded.capacity_eq]
          exact decodePending_done hstep.inv he

theorem fill_pulled (h : Inv lost w) : Pulled lost w (fill w) := by
  have hdecoded := decodePending_filled h
  have hfill : fill w = pull (w.decodePending.reader.span + 1) w.decodePending := rfl
  rw [hfill]
  refine .after_filled hdecoded (pull_pulled _ hdecoded.inv (.inr (by omega)) ?_)
  intro he
  rw [hdecoded.capacity_eq]
  exact decodePending_done h he

end Window
end Copione
