import Sofab.Faultless

/-!
# What a suspended decoder holds

Between two feeds an unrejected decoder stands in front of a field, inside the head of one or
inside a body, and its carry holds just the started part of what it stands in. This is said
here in terms of the decoder's own state, with the head of a field as the list of its words.
-/

namespace Sofab

open Reading Reading.Reader

/-- What the carry holds of the item in progress, and how much of that item is missing. -/
def Started : Resume → List UInt8 → Prop
  | .none, carried => carried = [] ∨ ∃ words, HeadWords words ∧ words.length ≤ 3 ∧
    carried <+: words.flatten ∧ carried ≠ words.flatten
  | .payload _ _ total remaining, carried => carried = [] ∧ 0 < remaining ∧ remaining ≤ total
  | .arrayInt _ _ remaining, carried =>
    1 ≤ remaining ∧ carried.length ≤ 9 ∧ ∀ b ∈ carried, 128 ≤ b.toNat
  | .arrayFix _ fp64 remaining, carried => 1 ≤ remaining ∧ carried.length < elemLen fp64

/-- The state of a decoder between two feeds. -/
structure Suspended (is : IStream) : Prop where
  carryLen : is.carryLen ≤ 29
  live : is.live.length = is.carryLen
  depth : is.depth ≤ maxDepth
  started : Started is.resume is.live

/-- A held tail is the started part of what is in progress. -/
theorem Held.started {depth : ℕ} {body : Resume} {tail : List UInt8} (h : Held depth body tail) :
    Started body tail := by
  cases h with
  | boundary => exact .inl rfl
  | head notes hshort _ =>
    obtain ⟨words, hwords, hbegins⟩ := headWords_of_short hshort
    exact .inr ⟨words, hwords, hwords.length_le, hbegins⟩
  | body hpending =>
    cases body with
    | none => exact hpending.elim
    | payload id isBlob total remaining => exact hpending
    | arrayInt id signed remaining =>
      obtain ⟨hremaining, hshort⟩ := hpending
      obtain ⟨-, -, hread⟩ := readWord_short hshort
      exact ⟨hremaining, UnfinishedVarint.continues hread⟩
    | arrayFix id fp64 remaining => exact hpending

/-- A stream that goes on with a message is suspended. -/
theorem Fed.suspended {bytes : List UInt8} {is : IStream} (h : Fed bytes is)
    (hvalid : is.invalid = false) : Suspended is := by
  rcases h.follows with hfollows | hinvalid
  · have hwell := hfollows.wellFormed
    exact ⟨Nat.le_of_lt_succ hwell.fits, hwell.live_length, h.sane.depth, hwell.held.started⟩
  · rw [hinvalid] at hvalid
    cases hvalid

/-- After any feeds, an unrejected decoder holds at most 29 bytes, which are the started part
of the item in progress, and the next feed does what it does without a fault. -/
theorem fed_suspended_and_faultless {bytes : List UInt8} {is : IStream} (h : Fed bytes is) :
    (is.invalid = false → Suspended is) ∧
      ∀ chunk, Checked.feed chunk is = some (IStream.feed chunk is) :=
  ⟨h.suspended, fun chunk => (h.faultless chunk).agrees⟩

/-- An array of two doubles torn in its first element, and the rest of it. -/
theorem fed_suspended_and_faultless_torn :
    (IStream.feed [0x05, 0x02, 0x41, 0x01, 0x02, 0x03] .new).is.resume = .arrayFix 0 true 2 ∧
      (IStream.feed [0x05, 0x02, 0x41, 0x01, 0x02, 0x03] .new).is.carryLen = 3 ∧
      Suspended (IStream.feed [0x05, 0x02, 0x41, 0x01, 0x02, 0x03] .new).is ∧
      Checked.feed [4, 5, 6, 7, 8, 1, 2, 3, 4, 5, 6, 7, 8]
          (IStream.feed [0x05, 0x02, 0x41, 0x01, 0x02, 0x03] .new).is =
        some (IStream.feed [4, 5, 6, 7, 8, 1, 2, 3, 4, 5, 6, 7, 8]
          (IStream.feed [0x05, 0x02, 0x41, 0x01, 0x02, 0x03] .new).is) :=
  ⟨by decide +kernel, by decide +kernel,
    (fed_suspended_and_faultless (Fed.new.feed _)).1 (by decide +kernel),
    (fed_suspended_and_faultless (Fed.new.feed _)).2 _⟩

end Sofab
