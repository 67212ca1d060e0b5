import Copione.Proofs.PairedSources
import Copione.Proofs.WindowView
/-!
# Readers that cut their bytes differently

What filling a window leaves in it depends on the bytes alone, those that are pending and those
that the reader still has, and not on how the reader cuts them or is interrupted. A window behaves
as if all of them were pending already, so windows on the same bytes cannot be told apart.
-/
namespace Copione

namespace Window

section Decoding

variable {exhausted : Bool} {room : Nat} {buffer : Array Char} {bytes rest : List UInt8} {c : Char}

private theorem decodeInto_of_some (h : Utf8.first? bytes = some (c, rest)) :
    decodeInto exhausted (room + 1) buffer bytes = decodeInto exhausted room (buffer.push c) rest := by
  rw [decodeInto, h]

private theorem decodeInto_of_none (h : Utf8.first? bytes = none) :
    decodeInto exhausted (room + 1) buffer bytes =
      if exhausted && !bytes.isEmpty then (buffer.push Utf8.replacement, []) else (buffer, bytes) := by
  rw [decodeInto, h]

private theorem decodeInto_nil : decodeInto exhausted room buffer [] = (buffer, []) := by
  cases room <;> simp [decodeInto, Utf8.first?]

end Decoding

/-- Decoding may stop after any of the bytes and go on when more of them are there. -/
theorem decodeInto_append {exhausted : Bool} {more : List UInt8} (hend : exhausted → more = [])
    (capacity : Nat) (buffer : Array Char) (bytes : List UInt8) :
    let decoded := decodeInto exhausted (capacity - buffer.size) buffer bytes
    decodeInto exhausted (capacity - decoded.1.size) decoded.1 (decoded.2 ++ more) =
      decodeInto exhausted (capacity - buffer.size) buffer (bytes ++ more) := by
  induction hroom : capacity - buffer.size generalizing buffer bytes with
  | zero => simp [decodeInto, hroom]
  | succ room ih =>
    cases hfirst : Utf8.first? bytes with
    | some found =>
      obtain ⟨c, rest⟩ := found
      rw [decodeInto_of_some hfirst, decodeInto_of_some (Utf8.first?_append more hfirst)]
      exact ih (buffer.push c) rest (by rw [Array.size_push]; omega)
    | none =>
      rw [decodeInto_of_none hfirst]
      dsimp only
      split
      · next hcut =>
        rw [hend (Bool.and_eq_true_iff.mp hcut).1, List.append_nil, List.append_nil, decodeInto_nil,
          decodeInto_of_none hfirst, if_pos hcut]
      · rw [hroom]

def Decoded (w : Window) : Prop :=
  decodeInto w.exhausted (w.capacity - w.buffer.size) w.buffer w.pending = (w.buffer, w.pending)

private theorem Decoded.decodePending_eq {w : Window} (h : w.Decoded) : w.decodePending = w := by
  unfold Decoded at h
  rw [decodePending, h]

theorem decodePending_decoded (w : Window) : w.decodePending.Decoded := by
  have h := decodeInto_append (fun _ : w.exhausted => rfl) w.capacity w.buffer w.pending
  simp only [List.append_nil] at h
  exact h

def gather (w : Window) : Window := { w with pending := w.supply, reader := .ofBytes [] }

structure Unfailing (w : Window) : Prop where
  never : ∀ reason, ¬ w.reader.MayFail reason
  ended : w.exhausted → w.reader.bytes = []

variable {w t : Window}

private theorem Unfailing.decodePending (h : Unfailing w) : Unfailing w.decodePending :=
    ⟨h.never, h.ended⟩

private theorem decodePending_gather (h : Unfailing w) :
    w.decodePending.gather.decodePending = w.gather.decodePending := by
  have happend := decodeInto_append h.ended w.capacity w.buffer w.pending
  simp only [decodePending, gather, supply, happend]

private theorem supply_eq_pending (hbytes : w.reader.bytes = []) : w.supply = w.pending := by
  rw [supply, hbytes, List.append_nil]

private theorem Decoded.gather (h : w.Decoded) (hbytes : w.reader.bytes = []) : w.gather.Decoded := by
  rw [Window.gather, supply_eq_pending hbytes]
  exact h

private theorem read_ofBytes_nil (room : Nat) :
    (Reader.ofBytes []).read room = (.piece [], .ofBytes []) := by
  simp [Reader.read, Reader.deliver, Reader.ofBytes]

private theorem pull_of_exhausted (h : w.exhausted) (fuel : Nat) : pull fuel w = .ok () w := by
  cases fuel with
  | zero => rfl
  | succ fuel => rw [pull_succ, if_pos (by simp [h])]

/-- However the reader goes on, the window ends up as if it had its bytes already. -/
private theorem pull_gather (fuel : Nat) (h : Unfailing w) (hdecoded : w.Decoded)
    (hfuel : w.exhausted ∨ w.reader.span < fuel) :
    ∃ t, pull fuel w = .ok () t ∧ Unfailing t ∧ pull 1 w.gather.decodePending = .ok () t.gather := by
  induction fuel generalizing w with
  | zero =>
    have he : w.exhausted := hfuel.resolve_right (Nat.not_lt_zero _)
    refine ⟨w, rfl, h, ?_⟩
    rw [(hdecoded.gather (h.ended he)).decodePending_eq]
    exact pull_of_exhausted (w := w.gather) he 1
  | succ fuel ih =>
    rw [pull_succ fuel]
    split
    · next hstop =>
      refine ⟨w, rfl, h, ?_⟩
      have hgather : w.gather.Decoded := by
        simp only [Bool.or_eq_true, decide_eq_true_eq] at hstop
        rcases hstop with he | hfull
        · exact hdecoded.gather (h.ended he)
        · simp [Decoded, gather, Nat.sub_eq_zero_of_le hfull, decodeInto]
      rw [hgather.decodePending_eq, pull_succ]
      exact if_pos hstop
    next hgo =>
    have hroom : 0 < w.capacity - w.buffer.size := by
      simp only [Bool.or_eq_true, decide_eq_true_eq, not_or] at hgo
      omega
    have he : w.exhausted = false := by simp_all
    have hspan : w.reader.span < fuel + 1 := by simpa [he] using hfuel
    split
    · next reader hread =>
      obtain ⟨hbytes, -, hlt⟩ := Reader.read_interrupted hread
      have hnever := fun reason ht => h.never reason (Reader.MayFail.of_read hread reason ht)
      obtain ⟨t, hpull, ht, hgather⟩ := ih (w := { w with reader }) ⟨hnever, by simp [he]⟩ hdecoded
        (.inr (by simp only []; omega))
      refine ⟨t, hpull, ht, ?_⟩
      rwa [gather, supply, hbytes] at hgather
    · next reason reader hread => exact absurd (Reader.mayFail_of_failed hread) (h.never reason)
    · next bytes reader hread =>
      obtain ⟨hbytes, -, hend, hlt⟩ := Reader.read_piece hroom hread
      have hnever := fun reason ht => h.never reason (Reader.MayFail.of_read hread reason ht)
      by_cases hnil : bytes = []
      · obtain ⟨hended, -⟩ := hend hnil
        obtain ⟨rfl, hreader⟩ := List.append_eq_nil_iff.mp (hbytes ▸ hended)
        refine ⟨_, pull_of_exhausted rfl fuel, ⟨hnever, fun _ => hreader⟩, ?_⟩
        rw [(hdecoded.gather hended).decodePending_eq, pull_succ]
        refine (if_neg hgo).trans ?_
        simp only [pull, gather, supply, decodePending, read_ofBytes_nil, hended, hreader, List.append_nil]
        rfl
      · have hstep : Unfailing
            { w with reader, pending := w.pending ++ bytes, exhausted := bytes.isEmpty } :=
          ⟨hnever, by simp [hnil]⟩
        have hlt := hlt hnil
        obtain ⟨t, hpull, ht, hgather⟩ := ih hstep.decodePending (decodePending_decoded _)
          (.inr (by simp only [decodePending]; omega))
        refine ⟨t, hpull, ht, ?_⟩
        rw [decodePending_gather hstep, gather, supply, List.append_assoc, ← hbytes,
          List.isEmpty_eq_false_iff.mpr hnil, ← he] at hgather
        exact hgather

private theorem fill_gather (h : Unfailing w) :
    ∃ t, fill w = .ok () t ∧ Unfailing t ∧ fill w.gather = .ok () t.gather := by
  obtain ⟨t, hpull, ht, hgather⟩ := pull_gather (w.decodePending.reader.span + 1)
    h.decodePending w.decodePending_decoded (.inr (Nat.lt_succ_self _))
  rw [decodePending_gather h] at hgather
  exact ⟨t, hpull, ht, hgather⟩

/-- A window that does not fail, beside itself with all its bytes pending. -/
def Gathers (w t : Window) : Prop := Unfailing w ∧ t = w.gather

open Run (Pairs)

private theorem pairs_ensure (l : Nat) : Pairs Gathers (ensure l) (ensure l) := by
  rintro w _ ⟨h, rfl⟩
  have hended : (w.exhausted && w.supply.isEmpty) = (w.exhausted && w.pending.isEmpty) := by
    cases he : w.exhausted with
    | false => rfl
    | true => rw [supply_eq_pending (h.ended he)]
  rw [ensure_eq, ensure_eq]
  by_cases hl : w.current + l < w.buffer.size
  · rw [if_pos hl, if_pos (c := w.gather.current + l < w.gather.buffer.size) hl]
    exact .ok ⟨h, rfl⟩
  rw [if_neg hl, if_neg (c := w.gather.current + l < w.gather.buffer.size) hl]
  by_cases he : (w.exhausted && w.pending.isEmpty) = true
  · rw [if_pos he, if_pos (c := (w.gather.exhausted && w.gather.pending.isEmpty) = true) (hended ▸ he)]
    exact .ok ⟨h, rfl⟩
  rw [if_neg he, if_neg (c := (w.gather.exhausted && w.gather.pending.isEmpty) = true) (hended ▸ he)]
  by_cases hroom : w.capacity ≤ w.current + l - w.tokenStart
  · rw [if_pos hroom, if_pos (c := w.gather.capacity ≤ w.gather.current + l - w.gather.tokenStart) hroom]
    exact .error ⟨h, rfl⟩
  · obtain ⟨t, hfill, ht, hgather⟩ := fill_gather (w := w.compact) ⟨h.never, h.ended⟩
    have hcompact : w.gather.compact = w.compact.gather := rfl
    rw [if_neg hroom, if_neg (c := w.gather.capacity ≤ w.gather.current + l - w.gather.tokenStart) hroom,
      hcompact, hfill, hgather]
    exact .ok ⟨ht, rfl⟩

private theorem pairs_look (l : Nat) : Pairs Gathers (look l) (look l) := by
  intro w t hwt
  have hensure := pairs_ensure l w t hwt
  rw [look_eq, look_eq]
  generalize ensure l w = r at hensure
  generalize ensure l t = r' at hensure
  cases hensure with
  | error h => exact .error h
  | @ok found w t h =>
    cases found with
    | true =>
      obtain ⟨h, rfl⟩ := h
      exact .ok ⟨h, rfl⟩
    | false => exact .ok h

private theorem pairs_advance : Pairs Gathers advance advance := by
  rintro w _ ⟨h, rfl⟩
  have hlook := pairs_look 0 { w with memo := none } _ ⟨⟨h.never, h.ended⟩, rfl⟩
  have hforget : { w.gather with memo := none } = gather { w with memo := none } := rfl
  rw [advance_eq, advance_eq, hforget]
  generalize look 0 { w with memo := none } = r at hlook
  generalize look 0 (gather { w with memo := none }) = r' at hlook
  cases hlook with
  | error h => exact .error h
  | @ok next w t h =>
    obtain ⟨h, rfl⟩ := h
    cases next with
    | none => exact .ok ⟨h, rfl⟩
    | some c => exact .ok ⟨⟨h.never, h.ended⟩, rfl⟩

private theorem gathers_bisimulation : Source.Bisimulation Gathers where
  advance := pairs_advance
  peek := pairs_look 0
  peekNext := pairs_look 1
  currentToken {w t} h := by
    obtain ⟨h, rfl⟩ := h
    have hmemo : w.gather.memo = w.memo := rfl
    simp only [Source.currentToken, Window.currentToken, hmemo]
    split
    · exact ⟨rfl, h, rfl⟩
    · exact ⟨rfl, ⟨h.never, h.ended⟩, rfl⟩
  startToken {w t} h := by
    obtain ⟨h, rfl⟩ := h
    exact ⟨⟨h.never, h.ended⟩, rfl⟩
  tokenOffset {w t} h := by
    obtain ⟨h, rfl⟩ := h
    rfl
  remaining {w t} h := by
    obtain ⟨h, rfl⟩ := h
    simp [Source.remaining, gather, supply, Reader.ofBytes, Nat.add_assoc]

/-- A window opens on a reader that does not fail, as it opens on the bytes alone. -/
theorem open?_gathers {r : Reader} (capacity : Nat) (h : ∀ reason, ¬ r.MayFail reason) :
    ∃ w, open? r capacity = .ok w ∧ Unfailing w ∧
      fill (gather (unread (.ofBytes r.bytes) capacity)) = .ok () w.gather := by
  obtain ⟨w, hfill, hw, hgather⟩ := fill_gather (w := unread r capacity) ⟨h, by simp [unread]⟩
  exact ⟨w, by rw [open?_eq, hfill], hw, hgather⟩

/-- How a reader cuts its bytes is invisible: windows on readers that deliver the same bytes and do
not fail answer every sequence of calls alike, errors included, and give the same tokens. -/
theorem reads_invisible (r r' : Reader) (capacity : Nat) (hbytes : r.bytes = r'.bytes)
    (hr : ∀ reason, ¬ r.MayFail reason) (hr' : ∀ reason, ¬ r'.MayFail reason) :
    (∃ w w', open? r capacity = .ok w ∧ open? r' capacity = .ok w' ∧
      ∀ calls, Source.answers calls w = Source.answers calls w') ∧
    Token.scanReader r capacity = Token.scanReader r' capacity := by
  obtain ⟨w, hopen, hw, hgather⟩ := open?_gathers capacity hr
  obtain ⟨w', hopen', hw', hgather'⟩ := open?_gathers capacity hr'
  rw [← hbytes, hgather] at hgather'
  have hsame : w.gather = w'.gather := (EStateM.Result.ok.inj hgather').2
  constructor
  · refine ⟨w, w', hopen, hopen', fun calls => ?_⟩
    rw [gathers_bisimulation.answers_eq calls ⟨hw, rfl⟩, hsame,
      gathers_bisimulation.answers_eq calls ⟨hw', rfl⟩]
  · simp only [Token.scanReader, hopen, hopen']
    rw [Scanner.scanSource_eq_of_bisimulation gathers_bisimulation ⟨hw, rfl⟩, hsame,
      Scanner.scanSource_eq_of_bisimulation gathers_bisimulation ⟨hw', rfl⟩]

/-- The first byte is ill-formed, which shows with the second. One reader delivers both at once, so
the other one has a byte more in its window. Then two characters fill the window. -/
theorem reads_invisible_ill_formed :
    let r : Reader := ⟨[0xC3, 0x28, 0x29, 0xC3], [.deliver 2], none⟩
    let r' : Reader := ⟨[0xC3, 0x28, 0x29, 0xC3], [.interrupted, .deliver 1], none⟩
    let w : Window :=
      ⟨2, #[Utf8.replacement, '('], 0, 0, 0, [], false, none, ⟨[0x29, 0xC3], [], none⟩⟩
    let w' : Window :=
      ⟨2, #[Utf8.replacement, '('], 0, 0, 0, [0x29], false, none, ⟨[0xC3], [], none⟩⟩
    let calls : List Source.Call :=
      [.advance, .advance, .peek, .startToken, .advance, .advance, .isAtEnd]
    open? r 2 = .ok w ∧ open? r' 2 = .ok w' ∧
      Source.answers calls w' = [.ok (.char (some Utf8.replacement)), .ok (.char (some '(')),
        .error (.tokenTooLong 2 [Utf8.replacement, '(']), .ok .done, .ok (.char (some ')')),
        .ok (.char (some Utf8.replacement)), .ok (.flag true)] ∧
      Token.scanReader r 2 = Token.scanReader r' 2 := by
  intro r r' w w' calls
  have hr : ∀ reason, ¬ r.MayFail reason := by simp [Reader.MayFail, r]
  have hr' : ∀ reason, ¬ r'.MayFail reason := by simp [Reader.MayFail, r']
  have hopen : open? r 2 = .ok w := by
    dsimp only [r, w]
    rfl
  have hopen' : open? r' 2 = .ok w' := by
    dsimp only [r', w']
    rfl
  obtain ⟨⟨v, v', hv, hv', hanswers⟩, hscan⟩ := reads_invisible r r' 2 rfl hr hr'
  have hw : v = w := Except.ok.inj (hv.symm.trans hopen)
  have hw' : v' = w' := Except.ok.inj (hv'.symm.trans hopen')
  rw [hw, hw'] at hanswers
  exact ⟨hopen, hopen', (hanswers calls).symm.trans (by dsimp only [w, calls]; rfl), hscan⟩

end Window
end Copione
