import OmenDb.Lib.FrameLog

/-! Parsing a log that may be cut anywhere. Unlike a scan, a parse keeps what it has read when it has
to stop, and says why it stopped: the input is used up, its last frame is cut short, or what comes
next is refused. -/
namespace OmenDb.FrameLog

variable {β ε φ : Type}

inductive Stop (ε : Type)
  | complete
  | incomplete
  | refused (error : ε)
  deriving DecidableEq

/-- The frames at the front of the input with their raw bytes, and where they end. Every frame takes
at least one byte, so `bytes.length` rounds are enough for `bytes`. -/
def parse (next : Reader β ε φ) : ℕ → List β → List (φ × List β) × Stop ε
  | _, [] => ([], .complete)
  | 0, _ :: _ => ([], .incomplete)
  | rounds + 1, b :: bs =>
    match next (b :: bs) with
    | .error e => ([], .refused e)
    | .ok none => ([], .incomplete)
    | .ok (some (f, n)) =>
      let (fs, stop) := parse next rounds ((b :: bs).drop n)
      ((f, (b :: bs).take n) :: fs, stop)

/-- `raw` is read as the frame `f` whatever follows it, and a part of it only announces a frame. -/
structure Framed (reader : Reader β ε φ) (f : φ) (raw : List β) : Prop extends Reads reader f raw where
  torn : ∀ n, 0 < n → n < raw.length → reader (raw.take n) = .ok none

variable {next : Reader β ε φ} {fs : List (φ × List β)} {tail : List β} {rounds : ℕ}

theorem parse_nil (next : Reader β ε φ) (rounds : ℕ) : parse next rounds [] = ([], .complete) := by
  cases rounds <;> rfl

theorem parse_reads {f : φ} {raw : List β} (hf : Reads next f raw) (rest : List β) (rounds : ℕ) :
    parse next (rounds + 1) (raw ++ rest) = ((f, raw) :: (parse next rounds rest).1, (parse next rounds rest).2) := by
  obtain ⟨b, bs, hraw⟩ := List.exists_cons_of_ne_nil hf.nonempty
  have hnext := hf.next rest
  have htake : (raw ++ rest).take raw.length = raw := List.take_left
  have hdrop : (raw ++ rest).drop raw.length = rest := List.drop_left
  rw [hraw] at hnext htake hdrop ⊢
  rw [List.cons_append] at hnext htake hdrop ⊢
  simp only [parse, hnext, htake, hdrop]

theorem parse_raws (hr : ∀ f ∈ fs, Reads next f.1 f.2) (hn : (raws fs ++ tail).length ≤ rounds) :
    ∃ rest, tail.length ≤ rest ∧
      parse next rounds (raws fs ++ tail) = (fs ++ (parse next rest tail).1, (parse next rest tail).2) := by
  induction fs generalizing rounds with
  | nil => exact ⟨rounds, by simpa using hn, rfl⟩
  | cons f fs ih =>
    have hf := hr f (by simp)
    have hpos : 0 < f.2.length := List.length_pos_iff.mpr hf.nonempty
    simp only [raws_cons, List.append_assoc, List.length_append] at hn ⊢
    obtain ⟨r, rfl⟩ : ∃ r, rounds = r + 1 := ⟨rounds - 1, by omega⟩
    obtain ⟨rest, hrest, heq⟩ := @ih r (fun g hg => hr g (by simp [hg])) (by simp only [List.length_append]; omega)
    exact ⟨rest, hrest, by rw [parse_reads hf, heq]; rfl⟩

theorem parse_frames (hr : ∀ f ∈ fs, Reads next f.1 f.2) (hn : (raws fs).length ≤ rounds) :
    parse next rounds (raws fs) = (fs, .complete) := by
  obtain ⟨rest, -, heq⟩ := @parse_raws _ _ _ next fs [] rounds hr (by simpa using hn)
  rw [List.append_nil, parse_nil] at heq
  rw [heq, List.append_nil]

theorem parse_torn (hr : ∀ f ∈ fs, Reads next f.1 f.2) (hne : tail ≠ []) (ht : next tail = .ok none)
    (hn : (raws fs ++ tail).length ≤ rounds) : parse next rounds (raws fs ++ tail) = (fs, .incomplete) := by
  obtain ⟨rest, hrest, heq⟩ := parse_raws hr hn
  obtain ⟨b, bs, rfl⟩ := List.exists_cons_of_ne_nil hne
  obtain ⟨r, rfl⟩ : ∃ r, rest = r + 1 := ⟨rest - 1, by simp only [List.length_cons] at hrest; omega⟩
  rw [heq, parse, ht, List.append_nil]

def whole : List (φ × List β) → ℕ → List (φ × List β)
  | [], _ => []
  | f :: fs, n => if f.2.length ≤ n then f :: whole fs (n - f.2.length) else []

theorem whole_isPrefix (fs : List (φ × List β)) (n : ℕ) : whole fs n <+: fs := by
  induction fs generalizing n with
  | nil => simp [whole]
  | cons f fs ih =>
    rw [whole]
    split
    · exact List.prefix_cons_inj f |>.mpr (ih _)
    · exact List.nil_prefix

theorem whole_of_le (h : (raws fs).length ≤ n) : whole fs n = fs := by
  induction fs generalizing n with
  | nil => rfl
  | cons f fs ih =>
    simp only [raws_cons, List.length_append] at h
    rw [whole, if_pos (by omega), ih (by omega)]

theorem take_raws (fs : List (φ × List β)) (n : ℕ) :
    (raws fs).take n = raws (whole fs n) ∨
      ∃ f ∈ fs, ∃ k, 0 < k ∧ k < f.2.length ∧ n = (raws (whole fs n)).length + k ∧
        (raws fs).take n = raws (whole fs n) ++ f.2.take k := by
  induction fs generalizing n with
  | nil => exact .inl (by simp [whole])
  | cons f fs ih =>
    rw [whole]
    split
    · next hle =>
      rw [raws_cons, raws_cons, List.take_append, List.take_of_length_le hle]
      rcases ih (n - f.2.length) with heq | ⟨g, hg, k, hpos, hlt, hn, heq⟩
      · exact .inl (by rw [heq])
      · refine .inr ⟨g, by simp [hg], k, hpos, hlt, ?_, ?_⟩
        · rw [List.length_append]
          omega
        · rw [heq, List.append_assoc]
    · next hlt =>
      rw [raws_cons, List.take_append_of_le_length (by omega)]
      cases n with
      | zero => exact .inl (by simp)
      | succ n => exact .inr ⟨f, by simp, n + 1, by omega, by omega, by simp, by simp⟩

/-- A cut log is read back up to its last whole frame, and the parse tells a cut between frames from
one within a frame. -/
theorem parse_take (he : ∀ f ∈ fs, Framed next f.1 f.2) {n : ℕ} (hn : n ≤ (raws fs).length) (hrounds : n ≤ rounds) :
    parse next rounds ((raws fs).take n) =
      (whole fs n, if (raws (whole fs n)).length = n then .complete else .incomplete) := by
  have hr : ∀ f ∈ whole fs n, Reads next f.1 f.2 := fun f hf => (he f ((whole_isPrefix fs n).subset hf)).toReads
  have hlen : ((raws fs).take n).length = n := List.length_take_of_le hn
  rcases take_raws fs n with heq | ⟨f, hf, k, hpos, hlt, hk, heq⟩
  · rw [heq] at hlen ⊢
    rw [parse_frames hr (by omega), if_pos hlen]
  · rw [heq] at hlen ⊢
    have hne : f.2.take k ≠ [] := by
      intro hnil
      rcases List.take_eq_nil_iff.mp hnil with h | h
      · omega
      · rw [h] at hlt
        simp at hlt
    have hbound : (raws (whole fs n) ++ f.2.take k).length ≤ rounds := by omega
    rw [parse_torn hr hne ((he f hf).torn k hpos hlt) hbound, if_neg (by omega)]

/-- What a parse returns can be read back from its raw bytes, and these are the front of the input;
all of it, if the parse is complete. -/
theorem Local.parse_reads (hl : Local next) {bytes : List β} {stop : Stop ε}
    (h : parse next rounds bytes = (fs, stop)) :
    (∀ f ∈ fs, next f.2 = .ok (some (f.1, f.2.length)) ∧ Reads next f.1 f.2) ∧ raws fs <+: bytes ∧
      (stop = .complete → raws fs = bytes) := by
  induction rounds generalizing bytes fs stop with
  | zero =>
    cases bytes with
    | nil => cases h; simp
    | cons b bs => cases h; simp
  | succ rounds ih =>
    cases bytes with
    | nil => cases h; simp
    | cons b bs =>
      rw [parse] at h
      split at h
      · cases h; simp
      · cases h; simp
      · next f n hf =>
        cases h
        obtain ⟨hr, ⟨tail, htail⟩, hall⟩ := ih rfl
        have hreads := hl.reads hf
        refine ⟨?_, ⟨tail, ?_⟩, ?_⟩
        · intro g hg
          rcases List.mem_cons.mp hg with rfl | hg
          · exact ⟨by simpa using hreads.next [], hreads⟩
          · exact hr g hg
        · rw [raws_cons, List.append_assoc, htail, List.take_append_drop]
        · intro hstop
          rw [raws_cons, hall hstop, List.take_append_drop]

end OmenDb.FrameLog
