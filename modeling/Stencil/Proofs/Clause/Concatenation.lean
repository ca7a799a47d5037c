import Stencil.Proofs.Clause.Relocation
import Stencil.Proofs.Clause.Tiling

/-!
# Scanning one source after another

What follows a source that ends with an output or a statement is scanned as if it stood alone, only
that much further on.
-/

namespace Stencil

def ParseFault.shift (n : Nat) : ParseFault → ParseFault
  | located kind offset => located kind (n + offset)
  | numeralTooLong digits => numeralTooLong digits

namespace Clause

open Draft (Opens)

variable {stack : Stack}

/-! ## A source elsewhere -/

theorem blame_shift (n start : Nat) (r : Expr.Refusal) :
    blame (n + start) ((Relocation.shift n).refusal r) = (blame start r).shift n := by
  cases r with
  | located kind offset =>
    simp only [Relocation.refusal, Relocation.place, Relocation.shift, blame, ParseFault.shift]
    cases kind.atStart <;> rfl
  | tooDeep => rfl
  | numeralTooLong digits => rfl

theorem read_shift (n offset : Nat) (source : Text) :
    read stack (n + offset) source =
      (Relocation.shift n).outcome (Relocation.shift n).clause (read stack offset source) := by
  unfold read
  split
  · rw [Nat.add_assoc, Token.stream_shift]
    exact readStatement_move _ offset (Token.stream_ends ..)
  · rw [Nat.add_assoc, Token.stream_shift]
    exact readOutput_move _ offset _
  · rw [Nat.add_assoc]
    rfl

def shifted (n : Nat) : Except ParseFault (List Clause) → Except ParseFault (List Clause)
  | .ok clauses => .ok (clauses.map (Relocation.shift n).clause)
  | .error fault => .error (fault.shift n)

theorem shifted_cons (n : Nat) (c : Clause) (x : Except ParseFault (List Clause)) :
    shifted n (do let more ← x; return c :: more) =
      (do let more ← shifted n x; return (Relocation.shift n).clause c :: more) := by
  cases x <;> rfl

theorem scanFrom_shift (n offset : Nat) (source : Text) :
    scanFrom stack (n + offset) source = shifted n (scanFrom stack offset source) := by
  fun_induction scanFrom stack offset source with
  | case1 => exact scanFrom_nil _
  | case2 offset c rest ih =>
    rw [scanFrom, read_shift]
    cases read stack offset (c :: rest) with
    | error r => exact congrArg Except.error (blame_shift n offset r)
    | ok clause =>
      have hrest : rest.drop (((Relocation.shift n).clause clause).stop - (n + offset) - 1) =
          rest.drop (clause.stop - offset - 1) := by
        rw [Relocation.stop_clause]
        show rest.drop (n + clause.stop - (n + offset) - 1) = _
        rw [Nat.add_sub_add_left]
      show (do
        let more ← scanFrom stack ((Relocation.shift n).clause clause).stop
          (rest.drop (((Relocation.shift n).clause clause).stop - (n + offset) - 1))
        return (Relocation.shift n).clause clause :: more) = shifted n (do
          let more ← scanFrom stack clause.stop (rest.drop (clause.stop - offset - 1))
          return clause :: more)
      rw [hrest, shifted_cons, Relocation.stop_clause, ← ih clause]
      rfl

/-! ## A source with more after it -/

theorem stream_append_of_takes {start offset : Nat} {text : Text} {c : Clause}
    (h : Takes stack start (Token.stream closes offset text) c) (rest : Text) :
    Token.stream closes offset (text ++ rest) = Token.stream closes offset text := by
  obtain ⟨ts, after, hts, hr, -⟩ := h
  obtain ⟨init, last, rfl, hk, -⟩ := hr.closing
  refine Token.stream_append (fun k => closes_eq) rest offset text ⟨last, ?_, hk⟩
  rw [hts]
  simp

theorem textLength_append_of_lt {front : Text} (rest : Text) (h : textLength front < front.length) :
    textLength (front ++ rest) = textLength front := by
  fun_induction textLength front with
  | case1 => cases h
  | case2 | case3 => rfl
  | case4 c front hs ho ih =>
    rw [List.length_cons] at h
    have hlt : textLength front < front.length := Nat.lt_of_succ_lt_succ h
    obtain ⟨d, front, rfl⟩ := List.exists_cons_of_length_pos (Nat.zero_lt_of_lt hlt)
    rw [List.cons_append, textLength_cons, ih hlt]
    rintro ⟨e, more, heq, he⟩
    obtain ⟨rfl, hd, -⟩ := by simpa using heq
    rcases he with rfl | rfl
    · exact hs front rfl (by rw [hd])
    · exact ho front rfl (by rw [hd])

/-- What is read in front of something else is read there whatever the source goes on with. -/
theorem read_append {front : Text} {offset : Nat} {c : Clause} (h : read stack offset front = .ok c)
    (hlt : c.isText = true → c.stop < offset + front.length) (rest : Text) :
    read stack offset (front ++ rest) = .ok c := by
  unfold read at h
  split at h
  · show readStatement stack offset (Token.stream closes (offset + 2) (_ ++ rest)) = _
    rw [stream_append_of_takes (readStatement_sound h)]
    exact h
  · show readOutput stack offset (Token.stream closes (offset + 2) (_ ++ rest)) = _
    rw [stream_append_of_takes (readOutput_sound h)]
    exact h
  · rename_i hs ho
    obtain rfl := pure_eq_ok.mp h
    have hmore : textLength front < front.length := Nat.lt_of_add_lt_add_left (hlt rfl)
    have hpos : 0 < textLength front :=
      textLength_pos (List.ne_nil_of_length_pos (Nat.zero_lt_of_lt hmore)) hs ho
    have heq := textLength_append_of_lt rest hmore
    rw [read_text (heq ▸ hpos), heq]

/-! ## Sources one after the other -/

section
variable {front : Text}

theorem drop_append_split (rest : Text) {m n : Nat} (h : m ≤ n) :
    front.drop m ++ rest = (front.drop m).take (n - m) ++ (front.drop n ++ rest) := by
  rw [← List.append_assoc, ← Nat.add_sub_cancel' h, ← List.drop_drop, Nat.add_sub_cancel_left,
    List.take_append_drop]

/-- A run of text that is not the last clause has something after it. -/
theorem lt_length_of_last {c : Clause} {more : List Clause}
    (hmore : scanFrom stack c.stop (front.drop c.stop) = .ok more)
    (hlast : ∀ d ∈ (c :: more).getLast?, d.isText = false) (hc : c.isText = true) :
    c.stop < front.length := by
  by_cases hlt : c.stop < front.length
  · exact hlt
  · rw [List.drop_eq_nil_of_le (Nat.le_of_not_lt hlt), scanFrom_nil] at hmore
    cases hmore
    rw [hlast c rfl] at hc
    cases hc

variable (rest : Text)

theorem scanFrom_concat {offset : Nat} {clauses : List Clause} (hle : offset ≤ front.length)
    (h : scanFrom stack offset (front.drop offset) = .ok clauses)
    (hlast : ∀ c ∈ clauses.getLast?, c.isText = false) :
    scanFrom stack offset (front.drop offset ++ rest) =
      (scanFrom stack front.length rest).map (clauses ++ ·) := by
  revert hlast
  -- along the scan of `front`: only its last clause could reach into `rest`, and only as a text
  refine scanFrom_induction (P := fun o cs => (∀ c ∈ cs.getLast?, c.isText = false) →
    scanFrom stack o (front.drop o ++ rest) =
      (scanFrom stack front.length rest).map (cs ++ ·)) ?_ ?_ hle h
  · intro _
    rw [List.drop_length, List.nil_append]
    cases scanFrom stack front.length rest <;> rfl
  · intro o c more hlt hread hmore ih hlast
    obtain ⟨-, hstop, hend⟩ := bounds_of_read hlt hread
    have hlength : ((front.drop o).take (c.stop - o)).length = c.stop - o := by
      rw [List.length_take, List.length_drop]
      omega
    have hnext : read stack o (front.drop o ++ rest) = .ok c := by
      apply read_append hread
      intro hc
      have := lt_length_of_last hmore hlast hc
      rw [List.length_drop]
      omega
    have hothers : ∀ d ∈ more.getLast?, d.isText = false := by
      intro d hd
      apply hlast d
      rw [List.getLast?_cons, Option.mem_def.mp hd]
      rfl
    rw [drop_append_split rest (Nat.le_of_lt hstop)] at hnext ⊢
    rw [scanFrom_append (List.ne_nil_of_length_pos (by omega)) hnext (by omega), ih hothers]
    cases scanFrom stack front.length rest <;> rfl

/-- **Scanning is compositional.** What comes after a whole output or statement is scanned as it is
alone, moved along, and changes nothing about the clauses in front of it. -/
theorem scan_concat {clauses : List Clause} (h : scan stack front = .ok clauses)
    (hlast : ∀ c ∈ clauses.getLast?, c.isText = false) :
    scan stack (front ++ rest) =
      match scan stack rest with
      | .ok more => .ok (clauses ++ more.map (Relocation.shift front.length).clause)
      | .error fault => .error (fault.shift front.length) := by
  have hconcat : scan stack (front ++ rest) =
      (scanFrom stack (front.length + 0) rest).map (clauses ++ ·) :=
    by
    rw [scan_eq_scanFrom] at h ⊢
    exact scanFrom_concat rest (Nat.zero_le _) h hlast
  rw [hconcat, scanFrom_shift, ← scan_eq_scanFrom]
  cases scan stack rest <;> rfl

theorem scan_concat_braces :
    let front := "\x7b% endif %\x7d".toList
    let rest := "\x7d\x7b\x7b b \x7d\x7d".toList
    let e : Expr := .symbol ⟨4, 5⟩ ['b']
    scan .least front = .ok [.endIf ⟨0, 11⟩] ∧
      scan .least rest = .ok [.text ⟨0, 1⟩, .output ⟨1, 8⟩ e] ∧
      scan .least (front ++ rest) = .ok [.endIf ⟨0, 11⟩, .text ⟨11, 12⟩,
        .output ⟨12, 19⟩ (.symbol ⟨15, 16⟩ ['b'])] := by
  intro front rest e
  have hfront : scan .least front = .ok [.endIf ⟨0, 11⟩] := by
    subst front
    with_unfolding_all rfl
  have hrest : scan .least rest = .ok [.text ⟨0, 1⟩, .output ⟨1, 8⟩ e] := by
    subst rest e
    with_unfolding_all rfl
  refine ⟨hfront, hrest, ?_⟩
  rw [scan_concat rest hfront (by simp [isText]), hrest]
  rfl

end

end Clause

end Stencil
