import Copione.Proofs.ParserSteps
/-!
# Progress of the parser

The parser only moves forward. After a declaration that cannot be read it moves on to a boundary, by
at least one token unless the brace that closes an open block stands there.
-/
namespace Copione

namespace Parser

/-- From `p` on to `q` at least `k` tokens were passed, and no block or function stayed open. -/
structure Onward (k : Nat) (p q : Parser) : Prop where
  passed : ∃ ts : List Token, p.rest = ts ++ q.rest ∧ k ≤ ts.length
  functionDepth_eq : q.functionDepth = p.functionDepth
  blockDepth_eq : q.blockDepth = p.blockDepth

variable {p q r : Parser} {k m n : Nat}

theorem Onward.refl (p : Parser) : Onward 0 p p := ⟨⟨[], rfl, Nat.le_refl 0⟩, rfl, rfl⟩

theorem Onward.trans (h : Onward k p q) (h' : Onward m q r) : Onward (k + m) p r := by
  obtain ⟨ts, hts, hk⟩ := h.passed
  obtain ⟨ts', hts', hm⟩ := h'.passed
  refine ⟨⟨ts ++ ts', ?_, ?_⟩, h'.functionDepth_eq.trans h.functionDepth_eq,
    h'.blockDepth_eq.trans h.blockDepth_eq⟩
  · rw [hts, hts', List.append_assoc]
  · rw [List.length_append]
    exact Nat.add_le_add hk hm

theorem Onward.mono (h : Onward k p q) (hm : m ≤ k) : Onward m p q := by
  obtain ⟨ts, hts, hk⟩ := h.passed
  exact ⟨⟨ts, hts, Nat.le_trans hm hk⟩, h.functionDepth_eq, h.blockDepth_eq⟩

theorem Onward.length_le (h : Onward k p q) : q.rest.length + k ≤ p.rest.length := by
  obtain ⟨ts, hts, hk⟩ := h.passed
  rw [hts, List.length_append]
  omega

theorem Onward.closed (h : Onward k { p with blockDepth := p.blockDepth + 1 } q) :
    Onward k p { q with blockDepth := q.blockDepth - 1 } := by
  refine ⟨h.passed, h.functionDepth_eq, ?_⟩
  change q.blockDepth - 1 = p.blockDepth
  rw [h.blockDepth_eq, Nat.add_sub_cancel]

theorem Onward.left (h : Onward k { p with functionDepth := p.functionDepth + 1 } q) :
    Onward k p { q with functionDepth := q.functionDepth - 1 } := by
  refine ⟨h.passed, ?_, h.blockDepth_eq⟩
  change q.functionDepth - 1 = p.functionDepth
  rw [h.functionDepth_eq, Nat.add_sub_cancel]

theorem Onward.of_current_ne (h : Onward k p q) (hne : q.current ≠ p.current) : Onward 1 p q := by
  obtain ⟨ts, hts, -⟩ := h.passed
  cases ts with
  | nil =>
    refine absurd ?_ hne
    rw [current, current, hts, List.nil_append]
  | cons t ts => exact ⟨⟨t :: ts, hts, by simp⟩, h.functionDepth_eq, h.blockDepth_eq⟩

theorem next_of_eof (h : p.current.kind = .eof) : p.next = p := by
  obtain ⟨before, rest, errors, functionDepth, blockDepth⟩ := p
  cases rest with
  | nil => rfl
  | cons t rest =>
    have ht : t.kind = .eof := h
    simp [next, ht]

theorem next_rest_of_cons {t : Token} {rest : List Token} (h : p.rest = t :: rest)
    (ht : t.kind ≠ .eof) : p.next.rest = rest := by
  simp [next, h, ht]

theorem onward_next_of_ne (h : p.current.kind ≠ .eof) : Onward 1 p p.next := by
  obtain ⟨⟨ts, hwords, -, hrest, -⟩, -, hfunction, hblock⟩ := passes_next h
  refine ⟨⟨ts, hrest, ?_⟩, hfunction, hblock⟩
  have hlength := congrArg List.length hwords
  simp only [List.length_map, List.length_singleton] at hlength
  omega

theorem onward_next (p : Parser) : Onward 0 p p.next := by
  by_cases h : p.current.kind = .eof
  · rw [next_of_eof h]
    exact .refl p
  · exact (onward_next_of_ne h).mono (Nat.zero_le 1)

def settled (p : Parser) : Parser :=
  let q := p.skip (boundaryDistance (p.previous.kind == .semicolon) p.rest)
  skipBranches q.rest.length q

theorem synchronize_eq (p : Parser) :
    p.synchronize = if 0 < p.blockDepth ∧ p.current.kind = .rightBrace then p else p.next.settled := by
  rw [synchronize]
  simp only [Bool.and_eq_true, decide_eq_true_eq, beq_iff_eq]
  rfl

theorem skipBranches_of_ne (h : p.current.kind ≠ .oppure) (count : Nat) :
    skipBranches count p = p := by
  cases count with
  | zero => rfl
  | succ count => rw [skipBranches, if_neg (by simpa using h)]

theorem settled_of_boundary (h : p.previous.kind = .semicolon ∨ p.current.kind ∈ boundaries) :
    p.settled = skipBranches p.rest.length p := by
  have hdistance : boundaryDistance (p.previous.kind == .semicolon) p.rest = 0 := by
    cases hrest : p.rest with
    | nil => rfl
    | cons t rest =>
      rw [current, hrest] at h
      rw [boundaryDistance, if_pos (by simpa using h)]
  rw [settled, hdistance]
  rfl

theorem settled_next (h : p.previous.kind ≠ .semicolon) (h' : p.current.kind ∉ boundaries) :
    p.settled = p.next.settled := by
  have heof : p.current.kind ≠ .eof := by
    intro heof
    rw [heof] at h'
    exact h' (by decide)
  cases hrest : p.rest with
  | nil => exact absurd (by rw [current, hrest]; rfl) heof
  | cons t rest =>
    have hcurrent : p.current = t := by rw [current, hrest]; rfl
    rw [hcurrent] at h' heof
    have hdistance : boundaryDistance (p.previous.kind == .semicolon) p.rest =
        1 + boundaryDistance (t.kind == .semicolon) rest := by
      rw [hrest, boundaryDistance, if_neg (by simp [h, h'])]
    rw [settled, settled, hdistance, previous_next (by rwa [hcurrent]), hcurrent,
      next_rest_of_cons hrest heof, Nat.add_comm, skip]

theorem onward_skip (count : Nat) (p : Parser) : Onward 0 p (p.skip count) := by
  induction count generalizing p with
  | zero => exact .refl p
  | succ count ih => exact (onward_next p).trans (ih p.next)

private theorem onward_skipBranches (count : Nat) (p : Parser) : Onward 0 p (skipBranches count p) := by
  induction count generalizing p with
  | zero => exact .refl p
  | succ count ih =>
    rw [skipBranches]
    split
    · exact ((onward_next p).trans (onward_skip _ p.next)).trans (ih _)
    · exact .refl p

private theorem onward_settled (p : Parser) : Onward 0 p p.settled :=
  (onward_skip _ p).trans (onward_skipBranches _ _)

theorem onward_synchronize (p : Parser) : Onward 0 p p.synchronize := by
  rw [synchronize_eq]
  split
  · exact .refl p
  · exact (onward_next p).trans (onward_settled p.next)

theorem onward_synchronize_of_ne (h : p.current.kind ≠ .eof)
    (h' : p.blockDepth = 0 ∨ p.current.kind ≠ .rightBrace) : Onward 1 p p.synchronize := by
  have hnot : ¬(0 < p.blockDepth ∧ p.current.kind = .rightBrace) := by
    rintro ⟨hdepth, hkind⟩
    rcases h' with h' | h'
    · omega
    · exact h' hkind
  rw [synchronize_eq, if_neg hnot]
  exact (onward_next_of_ne h).trans (onward_settled p.next)

theorem declarations_eq_ok (stop : Parser → Bool) (decl : Parse Stmt) (count : Nat) (p : Parser) :
    ∃ ss q, declarations stop decl count p = .ok ss q := by
  induction count generalizing p with
  | zero => exact ⟨[], p, rfl⟩
  | succ count ih =>
    rw [declarations, Run.bind_of_ok Run.get_apply]
    split
    · exact ⟨[], p, rfl⟩
    · have hrecovering : ∃ s q, recovering decl p = .ok s q := by
        unfold recovering
        split
        · exact ⟨_, _, rfl⟩
        · exact ⟨_, _, rfl⟩
      obtain ⟨s, q, hq⟩ := hrecovering
      obtain ⟨ss, r, hr⟩ := ih q
      refine ⟨s.toList ++ ss, r, ?_⟩
      rw [Run.bind_of_ok hq, Run.bind_of_ok hr]
      rfl

end Parser
end Copione
