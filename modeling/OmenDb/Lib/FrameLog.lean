import Mathlib

/-! Append-only logs of self-delimiting frames. A reader looks at the front of its input and
reports the frame there with its length, that no whole frame is there, or that what is there must
be refused. Scanning repeats the reader until it finds no frame; what is left behind is the torn
tail of an interrupted append. -/
namespace OmenDb.FrameLog

variable {β ε φ : Type}

/-- What stands at the front of the input: a frame and its length, or no whole frame. -/
abbrev Reader (β ε φ : Type) := List β → Except ε (Option (φ × ℕ))

def raws (fs : List (φ × List β)) : List β := (fs.map Prod.snd).flatten

@[simp] theorem raws_nil : raws ([] : List (φ × List β)) = [] := rfl

@[simp] theorem raws_cons (f : φ × List β) (fs : List (φ × List β)) :
    raws (f :: fs) = f.2 ++ raws fs := by simp [raws]

@[simp] theorem raws_append (fs gs : List (φ × List β)) : raws (fs ++ gs) = raws fs ++ raws gs := by
  simp [raws]

/-- `raw` is read as the frame `f` whatever follows it. -/
structure Reads (next : Reader β ε φ) (f : φ) (raw : List β) : Prop where
  next : ∀ rest, next (raw ++ rest) = .ok (some (f, raw.length))
  nonempty : raw ≠ []

structure Local (next : Reader β ε φ) : Prop where
  pos : ∀ {bytes f n}, next bytes = .ok (some (f, n)) → 0 < n
  le : ∀ {bytes f n}, next bytes = .ok (some (f, n)) → n ≤ bytes.length
  front : ∀ {bytes f n}, next bytes = .ok (some (f, n)) →
    ∀ rest, next (bytes.take n ++ rest) = .ok (some (f, n))

theorem Local.reads {next : Reader β ε φ} (hl : Local next) {bytes : List β} {f : φ} {n : ℕ}
    (h : next bytes = .ok (some (f, n))) : Reads next f (bytes.take n) := by
  have hlen : (bytes.take n).length = n := by simp [hl.le h]
  refine ⟨fun rest => by rw [hl.front h, hlen], fun he => ?_⟩
  have hpos := hl.pos h
  rw [he] at hlen
  simp at hlen
  omega

end OmenDb.FrameLog
