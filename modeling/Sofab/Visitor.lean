import Sofab.Payload

/-!
# Visitors that do not see chunks

A visitor is a state and how a callback changes it. It is seamless when a payload leaves it the
same in pieces as in one: the bytes of the pieces so far may be anywhere in its state, but the
last piece has to lead where the whole payload would have led. A seamless visitor cannot tell
how a message was cut into chunks.
-/

namespace Sofab

open IStream

variable {S T : Type}

/-- How callbacks change a visitor. -/
def listen (hears : S → Callback → S) (s : S) (cs : List Callback) : S := cs.foldl hears s

/-- Callbacks in a row are listened to one list after the other. -/
theorem listen_append (hears : S → Callback → S) (s : S) (cs more : List Callback) :
    listen hears s (cs ++ more) = listen hears (listen hears s cs) more :=
  List.foldl_append

/-- A visitor that only keeps what it is told. -/
theorem listen_snoc (cs more : List Callback) :
    listen (fun cs c => cs ++ [c]) cs more = cs ++ more := by
  induction more generalizing cs with
  | nil => exact (List.append_nil cs).symm
  | cons c more ih => exact (ih (cs ++ [c])).trans (List.append_assoc cs [c] more)

/-- What a payload in pieces has to do to a visitor in comparison with one in which it comes whole.
`Held` is how they compare in between, `seen` being the bytes of the pieces so far. -/
structure Seamless (hears : S → Callback → S) (hears' : T → Callback → T) (R : S → T → Prop)
    (Held : Bool → Id → ℕ → List UInt8 → S → T → Prop) : Prop where
  call {s : S} {t : T} {c : Callback} (related : R s t) (start : FromStart c) (within : Within c) :
    R (hears s c) (hears' t c)
  first {s : S} {t : T} {isBlob : Bool} {id : Id} {total : ℕ} {chunk : List UInt8}
    (related : R s t) (nonempty : chunk ≠ []) (more : chunk.length < total) :
    Held isBlob id total chunk (hears s (.payload isBlob id total 0 chunk)) t
  next {s : S} {t : T} {isBlob : Bool} {id : Id} {total : ℕ} {seen chunk : List UInt8}
    (held : Held isBlob id total seen s t) (begun : seen ≠ []) (nonempty : chunk ≠ [])
    (more : seen.length + chunk.length < total) :
    Held isBlob id total (seen ++ chunk) (hears s (.payload isBlob id total seen.length chunk)) t
  last {s : S} {t : T} {isBlob : Bool} {id : Id} {total : ℕ} {seen chunk : List UInt8}
    (held : Held isBlob id total seen s t) (begun : seen ≠ []) (nonempty : chunk ≠ [])
    (fits : seen.length + chunk.length ≤ total) :
    R (hears s (.payload isBlob id total seen.length chunk))
      (hears' t (.payload isBlob id total 0 (seen ++ chunk)))

/-- Payload callbacks are told apart by everything they carry. -/
theorem payload_inj {isBlob isBlob' : Bool} {id id' : Id} {total total' offset offset' : ℕ}
    {chunk chunk' : List UInt8}
    (h : Callback.payload isBlob id total offset chunk =
      .payload isBlob' id' total' offset' chunk') :
    isBlob = isBlob' ∧ id = id' ∧ total = total' ∧ offset = offset' ∧ chunk = chunk' := by
  cases isBlob <;> cases isBlob' <;> cases h <;> exact ⟨rfl, rfl, rfl, rfl, rfl⟩

section Seamless

variable {hears : S → Callback → S} {hears' : T → Callback → T} {R : S → T → Prop}
  {Held : Bool → Id → ℕ → List UInt8 → S → T → Prop}

/-- Behind a piece there is some of the payload left. -/
theorem Joined.later_ne_nil {isBlob : Bool} {id : Id} {total offset : ℕ} {chunk : List UInt8}
    {run whole : List Callback} (h : Joined run (.payload isBlob id total offset chunk :: whole))
    (hpos : 0 < offset) (hfits : offset + chunk.length ≤ total) : chunk ≠ [] := by
  intro hnil
  have hzero := proper_payload.mp (h.whole_proper _ List.mem_cons_self) hnil
  omega

/-- Pieces lead a seamless visitor where the whole payloads lead; the first of them may go on with
a payload of which some pieces are held. -/
theorem Seamless.joined (hseamless : Seamless hears hears' R Held) {run whole : List Callback}
    (h : Joined run whole) (hwithin : ∀ c ∈ whole, Within c) (hstart : ∀ c ∈ whole.tail, FromStart c)
    {s : S} {t : T} :
    ((∀ c ∈ whole.head?, FromStart c) → R s t → R (listen hears s run) (listen hears' t whole)) ∧
      ∀ {isBlob : Bool} {id : Id} {total : ℕ} {seen chunk : List UInt8} {rest : List Callback},
        whole = .payload isBlob id total seen.length chunk :: rest → seen ≠ [] →
          Held isBlob id total seen s t → R (listen hears s run)
            (listen hears' t (.payload isBlob id total 0 (seen ++ chunk) :: rest)) := by
  induction h generalizing s t with
  | nil => exact ⟨fun _ hrelated => hrelated, fun habsurd => by cases habsurd⟩
  | @call c run whole hproper hjoined ih =>
    obtain ⟨hfits, hlater⟩ := List.forall_mem_cons.mp hwithin
    have hrest {s : S} {t : T} (hrelated : R s t) : R (listen hears s run) (listen hears' t whole) :=
      (ih hlater (fun d hd => hstart d (List.mem_of_mem_tail hd))).1
        (fun d hd => hstart d (List.mem_of_mem_head? hd)) hrelated
    refine ⟨fun hc hrelated => hrest (hseamless.call hrelated (hc c rfl) hfits), ?_⟩
    intro isBlob id total seen chunk rest heq hbegun hheld
    obtain ⟨rfl, rfl⟩ := List.cons.inj heq
    rw [within_payload] at hfits
    have hpos := List.length_pos_iff.mpr hbegun
    have hne : chunk ≠ [] := fun hnil => by
      have hzero := proper_payload.mp hproper hnil
      omega
    exact hrest (hseamless.last hheld hbegun hne hfits)
  | @piece isBlob id total offset chunk chunk' run whole hne hjoined ih =>
    obtain ⟨hfits, hlater⟩ := List.forall_mem_cons.mp hwithin
    rw [within_payload, List.length_append] at hfits
    have hpos := List.length_pos_iff.mpr hne
    have hpos' := List.length_pos_iff.mpr (hjoined.later_ne_nil (by omega) (by omega))
    have hrest {seen : List UInt8} {s : S} {t : T} (hlen : offset + chunk.length = seen.length)
        (hbegun : seen ≠ []) (hheld : Held isBlob id total seen s t) : R (listen hears s run)
          (listen hears' t (.payload isBlob id total 0 (seen ++ chunk') :: whole)) :=
      (ih (List.forall_mem_cons.mpr ⟨within_payload.mpr (by omega), hlater⟩) hstart).2
        (by rw [hlen]) hbegun hheld
    constructor
    · intro hzero hrelated
      obtain rfl : offset = 0 := fromStart_payload.mp (hzero _ rfl)
      exact hrest (Nat.zero_add _) hne (hseamless.first hrelated hne (by omega))
    · intro isBlob' id' total' seen chunk'' rest heq hbegun hheld
      obtain ⟨hcall, rfl⟩ := List.cons.inj heq
      obtain ⟨rfl, rfl, rfl, rfl, rfl⟩ := payload_inj hcall
      rw [← List.append_assoc]
      exact hrest List.length_append.symm (List.append_ne_nil_of_left_ne_nil hbegun chunk)
        (hseamless.next hheld hbegun hne (by omega))

/-- However a message is cut into chunks, they leave a seamless visitor where it would be if it had
been decoded at once. -/
theorem Seamless.fed (hseamless : Seamless hears hears' R Held) {s : S} {t : T} (hrelated : R s t)
    (chunk : List UInt8) (rest : List (List UInt8)) :
    R (listen hears s (feedAll IStream.new chunk rest).calls)
      (listen hears' t (decode (chunk :: rest).flatten).calls) := by
  obtain ⟨-, hjoined⟩ := feedAll_new_reads chunk rest
  have hwhole := readFields_whole 0 (chunk :: rest).flatten
  rw [decode_calls]
  exact (hseamless.joined hjoined (readFields_calls announced_within delivered_within 0 _)
    fun c hc => (hwhole c (List.mem_of_mem_tail hc)).2).1
      (fun c hc => (hwhole c (List.mem_of_mem_head? hc)).2) hrelated

end Seamless

end Sofab
