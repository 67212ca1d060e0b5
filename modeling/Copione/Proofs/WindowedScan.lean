import Copione.Proofs.ScanReads
import Copione.Proofs.Scans
/-!
# Scanning through a window

The scan of a stream ends as the scan of its whole text in memory, unless a read fails or a
lexeme does not fit in the window.
-/
namespace Copione.Token

/-- The tokens that the scan of a text in memory reads, whether it fails or not. -/
def produced (text : String) : List Token :=
  match scan text with
  | .ok tokens => tokens
  | .error f => f.held.getD []

private theorem tokens_prefix_produced (text : String) :
    Lexeme.tokens .start (Lexeme.all text.toList) <+: produced text := by
  rw [produced, scan_eq_transcript, Lexeme.transcript]
  cases Lexeme.finish .start (Lexeme.all text.toList) with
  | ok p => exact List.prefix_append _ _
  | error e => exact List.prefix_rfl

/-- How the scan of a stream ends, whose text is `text` and whose reader may fail. -/
private theorem scanReader_eq_or_refused {reader : Reader} {capacity room : Nat} {lost : List UInt8}
    {text : String} (hcapacity : 0 < capacity) (hlost : reader.failure = none → lost = [])
    (htext : Utf8.Decodes (reader.bytes ++ lost) text.toList) (hroom : 0 < room)
    (hrooms : ∀ l ∈ Lexeme.all text.toList, l.room ≤ room) :
    scanReader reader capacity = scan text ∨
      ∃ cause offset line held, scanReader reader capacity =
          .error ⟨(ScanFault.source cause).report offset 1 line, held⟩ ∧
        held.getD [] <+: produced text ∧
        match cause with
        | .tokenTooLong n _ => n = capacity ∧ capacity < room
        | .unreadable reason => reader.MayFail reason := by
  have hopen := Window.open?_shows capacity hlost
  unfold scanReader
  cases hwindow : Window.open? reader capacity with
  | error e =>
    rw [hwindow] at hopen
    obtain ⟨reason, rfl, hreason⟩ := hopen
    exact .inr ⟨_, 0, 1, none, rfl, List.nil_prefix, hreason⟩
  | ok w =>
    rw [hwindow, Nat.max_eq_left hcapacity, ← htext.eq_decode] at hopen
    obtain ⟨hinv, hview⟩ := hopen
    have hlawful := Window.source_lawful lost capacity reader.MayFail
    rcases scanSource_eq_or_refused hlawful hinv hview hroom hrooms with
      h | ⟨cause, n, c, line, held, hrefuses, hfit, hheld, h⟩
    · exact .inl (h.trans (scan_eq_transcript text).symm)
    · refine .inr ⟨cause, _, _, _, h, hheld.trans (tokens_prefix_produced text), ?_⟩
      cases cause with
      | tokenTooLong n start => exact ⟨hrefuses.1, Nat.lt_of_le_of_lt hrefuses.2 hfit⟩
      | unreadable reason => exact hrefuses

/-- Tokens of a stream are tokens of a text. -/
theorem scan_of_scanReader {reader : Reader} {capacity : Nat} {tokens : List Token}
    (h : scanReader reader capacity = .ok tokens) : ∃ text, scan text = .ok tokens := by
  have hopen := Window.open?_shows capacity (fun _ : reader.failure = none => rfl)
  unfold scanReader at h
  split at h
  · next w hwindow =>
    rw [hwindow] at hopen
    obtain ⟨hinv, hview⟩ := hopen
    obtain ⟨room, hpos, hrooms⟩ := exists_room (Lexeme.all (Utf8.decode (reader.bytes ++ [])))
    have hlawful := Window.source_lawful [] (max capacity 1) reader.MayFail
    rcases scanSource_eq_or_refused hlawful hinv hview hpos hrooms with
      hscan | ⟨_, _, _, _, _, -, -, -, hscan⟩
    · refine ⟨String.ofList (Utf8.decode (reader.bytes ++ [])), ?_⟩
      rw [scan_eq_transcript, String.toList_ofList, ← hscan, h]
    · rw [hscan] at h
      cases h
  · cases h

inductive Scanned (tokens : List Token) : Prop
  | text (text : String) (h : scan text = .ok tokens)
  | reader (reader : Reader) (capacity : Nat) (h : scanReader reader capacity = .ok tokens)

theorem Scanned.eof {tokens : List Token} (h : Scanned tokens) :
    ∃ ts e, tokens = ts ++ [e] ∧ e.kind = .eof ∧ ∀ t ∈ ts, t.kind ≠ .eof := by
  cases h with
  | text text h => exact eof_of_scan h
  | reader reader capacity h =>
    obtain ⟨text, h⟩ := scan_of_scanReader h
    exact eof_of_scan h

/-- The scan of a stream through a window ends as the scan of its whole text, the lossy decoding
of all its bytes, or it ends because a token is too long for the window or because a read that it
made failed, with some of the first tokens of that text. If the reader cannot fail and every lexeme
finds room in the window, then it ends as the scan of the text. -/
theorem scanReader_refines_scan (reader : Reader) (capacity : Nat) (lost : List UInt8) (text : String)
    (hcapacity : 0 < capacity) (hlost : reader.failure = none → lost = [])
    (htext : Utf8.Decodes (reader.bytes ++ lost) text.toList) :
    (scanReader reader capacity = scan text ∨
      ∃ cause offset line held, scanReader reader capacity =
          .error ⟨(ScanFault.source cause).report offset 1 line, held⟩ ∧
        held.getD [] <+: produced text ∧
        Window.Asked (Window.unread reader capacity) (windowAfterScan reader capacity) cause.reason? ∧
        match cause with
        | .tokenTooLong n _ => n = capacity
        | .unreadable reason => reader.MayFail reason) ∧
    ((∀ reason, ¬ reader.MayFail reason) → (∀ l ∈ Lexeme.all text.toList, l.room ≤ capacity) →
      scanReader reader capacity = scan text) := by
  constructor
  · obtain ⟨room, hpos, hrooms⟩ := exists_room (Lexeme.all text.toList)
    refine (scanReader_eq_or_refused hcapacity hlost htext hpos hrooms).imp_right ?_
    rintro ⟨cause, offset, line, held, hrun, hheld, hcause⟩
    refine ⟨cause, offset, line, held, hrun, hheld, scanReader_asked hrun, ?_⟩
    cases cause with
    | tokenTooLong n start => exact hcause.1
    | unreadable reason => exact hcause
  · intro hreader hrooms
    rcases scanReader_eq_or_refused hcapacity hlost htext hcapacity hrooms with
      h | ⟨cause, offset, line, held, -, -, hcause⟩
    · exact h
    · cases cause with
      | tokenTooLong n start => exact absurd hcause.2 (Nat.lt_irrefl _)
      | unreadable reason => exact absurd hcause (hreader reason)

/-- A letter of two bytes that come in two reads, in a window that the string fills. -/
theorem scanReader_refines_scan_split_letter :
    let reader : Reader :=
      ⟨[0x78, 0x3D, 0x22, 0xC3, 0xA9, 0x22], [.deliver 2, .interrupted, .deliver 1, .deliver 1], none⟩
    (∀ l ∈ Lexeme.all "x=\"é\"".toList, l.room ≤ 3) ∧ scanReader reader 3 = scan "x=\"é\"" ∧
      scan "x=\"é\"" = .ok [⟨.identifier, "x", some (.str "x"), ⟨0, 1, 1⟩⟩, ⟨.equal, "=", none, ⟨1, 1, 1⟩⟩,
        ⟨.string, "\"é\"", some (.str "é"), ⟨2, 4, 1⟩⟩, ⟨.eof, "", none, ⟨6, 0, 1⟩⟩] := by
  intro reader
  have hrooms : (Lexeme.all "x=\"é\"".toList).map Lexeme.room = [2, 2, 3] := by decide +kernel
  have hfits : ∀ l ∈ Lexeme.all "x=\"é\"".toList, l.room ≤ 3 := by
    intro l hl
    have hmem : l.room ∈ [2, 2, 3] := hrooms ▸ List.mem_map_of_mem hl
    simp at hmem
    omega
  have htext : Utf8.Decodes (reader.bytes ++ []) "x=\"é\"".toList :=
    Utf8.decodes_encoding ['x', '=', '"', 'é', '"']
  have hreader : ∀ reason, ¬ reader.MayFail reason := by
    simp [Reader.MayFail, reader]
  exact ⟨hfits, (scanReader_refines_scan reader 3 [] _ (by decide) (fun _ => rfl) htext).2 hreader
    hfits, Run.eq_ok_of_toOption (by decide +kernel)⟩

end Copione.Token
