import Sofab.Completion
import Sofab.Succession

/-!
# Between two fields

A decoder that stands between two fields remembers nothing of what it has read but how many
sequences are open. So fields that leave as many of them open can stand between any two others and
leave no trace but their own callbacks.
-/

namespace Sofab

open Reading Reading.Reader DecodeM IStream

variable {is is' : IStream} {bytes bytes' : List UInt8}

/-- A stream that is not inside a field and has not rejected its message. -/
structure BetweenFields (is : IStream) : Prop where
  valid : is.invalid = false
  resume : is.resume = .none
  carry : is.carryLen = 0

namespace BetweenFields

/-- Between fields no bytes are carried. -/
theorem live_eq (h : BetweenFields is) : is.live = [] := by
  rw [live, h.carry]
  rfl

/-- Two streams between fields with as many sequences open agree. -/
theorem agree (h : BetweenFields is) (h' : BetweenFields is') (hdepth : is'.depth = is.depth) :
    Agree is is' where
  fits := h.carry ▸ Nat.zero_le _
  carryLen := h'.carry.trans h.carry.symm
  live := h'.live_eq.trans h.live_eq.symm
  resume := h'.resume.trans h.resume.symm
  depth := hdepth
  invalid := h'.valid.trans h.valid.symm

/-- Between fields a chunk is read as fields. -/
theorem feed_result (h : BetweenFields is) (hfed : Fed bytes is) (chunk : List UInt8) :
    (feed chunk is).result = verdict (readFields is.depth chunk) := by
  have hfollows := hfed.follows.resolve_right (by rw [h.valid]; exact Bool.false_ne_true)
  have hresult := (feed_reads chunk hfollows.wellFormed h.valid).1
  rwa [h.resume, readRest_none, h.live_eq, List.nil_append] at hresult

end BetweenFields

/-- End headers close as many sequences as there are of them. -/
theorem readFields_closes (depth n : ℕ) :
    (readFields (depth + n) (List.replicate n 7)).outcome = .done depth [] := by
  induction n with
  | zero => rw [List.replicate_zero, Nat.add_zero, readFields_nil]
  | succ n ih =>
    rw [List.replicate_succ, ← Nat.add_assoc, readFields, exhaust_of_done (readField_end _ _)]
    exact ih

/-- What completes the message on one stream leaves sequences open on another that has more. -/
theorem BetweenFields.depth_le (h : BetweenFields is) (hfed : Fed bytes is)
    (h' : BetweenFields is') (hfed' : Fed bytes' is')
    (hsame : (feed (List.replicate is.depth 7) is').result =
      (feed (List.replicate is.depth 7) is).result) : is'.depth ≤ is.depth := by
  by_contra hlt
  obtain ⟨more, hmore⟩ := Nat.exists_eq_add_of_lt (Nat.lt_of_not_le hlt)
  have hdepth : is'.depth = more + 1 + is.depth := by omega
  have hclosed := readFields_closes 0 is.depth
  rw [Nat.zero_add] at hclosed
  rw [h.feed_result hfed, h'.feed_result hfed', hdepth, verdict, verdict, hclosed,
    readFields_closes] at hsame
  cases hsame

/-- Whatever was fed to two decoders before, and however they were reset: if both stand between two
fields, they report the same for all that follows exactly if as many sequences are open in both. -/
theorem boundary_remembers_depth (hfed : Fed bytes is) (hfed' : Fed bytes' is')
    (h : BetweenFields is) (h' : BetweenFields is') :
    (∀ later, (is'.feedEach later).1 = (is.feedEach later).1) ↔ is'.depth = is.depth := by
  constructor
  · intro hsame
    have hfirst (chunk : List UInt8) : (feed chunk is').result = (feed chunk is).result := by
      have hone := hsame [chunk]
      rw [feedEach, feedEach] at hone
      injection hone with hreport
      exact congrArg Prod.snd hreport
    apply Nat.le_antisymm
    · exact h.depth_le hfed h' hfed' (hfirst _)
    · exact h'.depth_le hfed' h hfed (hfirst _).symm
  · intro hdepth later
    exact (h.agree h' hdepth).feedEach later

/-- A sequence with two fields in it, and one behind another message with an overlong header. -/
theorem boundary_remembers_depth_overlong :
    ((feed [14, 8, 5, 16, 9] .new).is.feedEach [[8], [6, 7], [7]]).1 =
      ((feed [0x96, 0] (feed [14, 7] .new).is).is.feedEach [[8], [6, 7], [7]]).1 := by
  have hfed : Fed [14, 8, 5, 16, 9] (feed [14, 8, 5, 16, 9] .new).is := Fed.new.feed _
  have hfed' : Fed [14, 7, 0x96, 0] (feed [0x96, 0] (feed [14, 7] .new).is).is :=
    (Fed.new.feed [14, 7]).feed [0x96, 0]
  have h : BetweenFields (feed [14, 8, 5, 16, 9] .new).is :=
    ⟨by decide +kernel, by decide +kernel, by decide +kernel⟩
  have h' : BetweenFields (feed [0x96, 0] (feed [14, 7] .new).is).is :=
    ⟨by decide +kernel, by decide +kernel, by decide +kernel⟩
  exact (boundary_remembers_depth hfed' hfed h' h).mpr (by decide +kernel) _

end Sofab
