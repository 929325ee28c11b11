import Sofab.Decoding

/-!
# The verdict is exact

A rejection stands whatever follows. Any other input can still become a complete message:
once the bytes of an unfinished varint are dropped, some continuation finishes the field in
progress, and end headers close the open sequences.
-/

namespace Sofab

open Reading Reading.Reader

/-- Completable once the bytes of an unfinished varint are dropped. -/
abbrev Savable {α : Type} (r : WireReader α) (good : α → Prop) : Prop :=
  Completable UnfinishedVarint r good

/-- The decoder's own reader wants more bytes after an unfinished varint. -/
theorem unfinishedVarint_iff (bs : List UInt8) :
    UnfinishedVarint bs ↔ readVarint bs 0 = .ok none := by
  rw [UnfinishedVarint, readVarint_eq, List.drop_zero]
  cases Leb128.read fullGroups bs <;> simp

/-- An unfinished varint can be replaced by any value. -/
theorem savable_readWord {value : ℕ} (hvalue : value < 2 ^ 64) :
    Savable readWord fun a => a.2 = value := by
  intro bs torn notes h
  obtain ⟨rfl, rfl, hread⟩ := readWord_short h
  have hencode := readWord_encode hvalue []
  rw [List.append_nil] at hencode
  exact ⟨hread, [], Leb128.encode value, [], (Leb128.encode value, value), rfl, hencode, rfl⟩

/-- A good value at hand finishes with no input. -/
theorem open_pure {α : Type} {a : α} {good : α → Prop} (h : good a) :
    Open (pure a : WireReader α) good :=
  .inl ⟨[], a, rfl, h⟩

/-- However it is noted, an unfinished varint can be replaced by any value. -/
theorem savable_notedWord (noted : List UInt8 → ℕ → Note) {value : ℕ} (hvalue : value < 2 ^ 64) :
    Savable (notedWord noted) (· = value) := by
  refine Completable.bind _ local_readWord (savable_readWord hvalue) (fun a => ?_) fun a ha => ?_
  · exact ((neverShort_note _).bind fun _ => neverShort_pure _).completable
  · exact .inl ⟨_, a.2, rfl, ha⟩

/-- An unfinished varint that is noted as it is spelled can be replaced by any value. -/
theorem savable_word {value : ℕ} (hvalue : value < 2 ^ 64) : Savable word (· = value) :=
  savable_notedWord _ hvalue

/-- A reader that starts with a varint is open. -/
theorem open_word_bind {α : Type} (next : ℕ → WireReader α) {good : α → Prop} :
    Open (word >>= next) good :=
  .inr ⟨[], [], rfl⟩

/-- A condition in front of a savable reader. -/
theorem savable_demand_bind {α : Type} (p : Prop) [Decidable p] {next : Unit → WireReader α}
    {good : α → Prop} (hnext : ∀ u, Savable (next u) good) :
    Savable (demand p >>= next) good :=
  Completable.bind (fun _ => False) (local_demand p) (neverShort_demand p).completable hnext
    fun _ h => h.elim

/-- A demand that is met keeps what follows it open. -/
theorem open_demand_bind {α : Type} {p : Prop} [Decidable p] (hp : p) {next : Unit → WireReader α}
    {good : α → Prop} (hnext : Open (next ()) good) : Open (demand p >>= next) good := by
  rw [demand_of_pos hp, pure_bind]
  exact hnext

/-- An announcement has nothing to save. -/
theorem savable_announce (depth : ℕ) (call : Callback) (body : Resume) :
    Savable (announce depth call body) fun _ => True :=
  (neverShort_announce depth call body).completable

/-- An announcement finishes with no input. -/
theorem open_announce (depth : ℕ) (call : Callback) (body : Resume) :
    Open (announce depth call body) fun _ => True :=
  .inl ⟨[.call call], (depth, body), rfl, trivial⟩

/-- The head of a fixlen field is saved as that of an empty string. -/
theorem savable_fixlenHead (depth : ℕ) (id : Id) : Savable (fixlenHead depth id) fun _ => True := by
  -- 2 is the word of an empty string
  refine Completable.bind ((· = 2)) local_word (savable_word (by decide)) (fun w => ?_)
    fun w hw => ?_
  · refine savable_demand_bind _ fun _ => ?_
    split
    · exact savable_demand_bind _ fun _ => savable_announce _ _ _
    · exact savable_demand_bind _ fun _ => savable_announce _ _ _
    · exact savable_announce _ _ _
    · exact savable_announce _ _ _
    · exact neverShort_reject.completable
  · subst hw
    exact open_demand_bind (by decide) (open_announce _ _ _)

/-- The head of an integer array is saved as that of an empty one. -/
theorem savable_integersHead (depth : ℕ) (id : Id) (signed : Bool) :
    Savable (integersHead depth id signed) fun _ => True := by
  refine Completable.bind ((· = 0)) local_word (savable_word (by decide)) (fun count => ?_)
    fun count hcount => ?_
  · exact savable_demand_bind _ fun _ => savable_announce _ _ _
  · subst hcount
    exact open_demand_bind (by decide) (open_announce _ _ _)

/-- The head of a float array is saved as that of an array of single floats. -/
theorem savable_floatsHead (depth : ℕ) (id : Id) : Savable (floatsHead depth id) fun _ => True := by
  refine Completable.bind ((· = 0)) local_word (savable_word (by decide)) (fun count => ?_)
    fun count hcount => ?_
  · refine savable_demand_bind _ fun _ => ?_
    -- 32 is the word of a four-byte float
    refine Completable.bind ((· = 32)) local_word (savable_word (by decide)) (fun w => ?_)
      fun w hw => ?_
    · rw [floatsOf]
      split
      · exact savable_announce _ _ _
      · exact savable_announce _ _ _
      · exact neverShort_reject.completable
    · subst hw
      exact open_announce _ _ _
  · subst hcount
    exact open_demand_bind (by decide) (open_word_bind _)

/-- Past its header a head is saved, whatever its wire type. -/
theorem savable_fieldHead (depth h : ℕ) : Savable (fieldHead depth h) fun _ => True := by
  have hscalar (call : ℕ → Callback) :
      Savable (word >>= fun value => announce depth (call value) .none) fun _ => True := by
    refine Completable.bind ((· = 0)) local_word (savable_word (by decide))
      (fun _ => savable_announce _ _ _) fun _ _ => open_announce _ _ _
  refine savable_demand_bind _ fun _ => ?_
  unfold typedHead
  split
  · exact hscalar _
  · exact hscalar _
  · exact savable_fixlenHead _ _
  · exact savable_integersHead _ _ _
  · exact savable_integersHead _ _ _
  · exact savable_floatsHead _ _
  · exact savable_demand_bind _ fun _ => savable_announce _ _ _
  · exact savable_demand_bind _ fun _ => savable_announce _ _ _

/-- Every head in progress can be finished. -/
theorem savable_readHead (depth : ℕ) : Savable (readHead depth) fun _ => True := by
  refine Completable.bind ((· = 0)) (local_notedWord _) (savable_notedWord _ (by decide))
    (savable_fieldHead depth) fun h hh => ?_
  subst hh
  exact open_demand_bind (by decide) (open_word_bind _)

/-- Bytes padded up to `n`. -/
theorem padded_length {bs : List UInt8} {n : ℕ} (h : ¬n ≤ bs.length) :
    (bs ++ List.replicate (n - bs.length) 0).length = n := by
  rw [List.length_append, List.length_replicate]
  omega

/-- A payload that is there as a whole is read in one callback. -/
theorem payload_of_le (id : Id) (isBlob : Bool) (total : ℕ) {remaining : ℕ} {bs : List UInt8}
    (h : remaining ≤ bs.length) :
    payload id isBlob total remaining bs =
      ⟨[.raw (bs.take remaining), .call (.payload isBlob id total (total - remaining)
        (bs.take remaining))], .done () (bs.drop remaining)⟩ := by
  rw [payload, if_pos h]

/-- Bytes that are there are taken as they are. -/
theorem rawBytes_of_le {n : ℕ} {bs : List UInt8} (h : n ≤ bs.length) :
    rawBytes n bs = ⟨[.raw (bs.take n)], .done (bs.take n) (bs.drop n)⟩ := by
  rw [rawBytes, if_pos h]

/-- Any bytes finish a payload. -/
theorem savable_payload (id : Id) (isBlob : Bool) (total remaining : ℕ) :
    Savable (payload id isBlob total remaining) fun _ => True := by
  intro bs torn notes h
  rw [payload] at h
  split at h
  · cases h
  · next hlt =>
    have htorn : torn = [] := by split at h <;> cases h <;> rfl
    subst htorn
    have hlen := padded_length hlt
    have hread := payload_of_le id isBlob total hlen.ge
    rw [List.drop_eq_nil_of_le hlen.le] at hread
    exact ⟨unfinishedVarint_nil, bs, _, _, (), (List.append_nil bs).symm, hread, trivial⟩

/-- Missing bytes can be supplied, and none of those there are dropped. -/
theorem savable_rawBytes (n : ℕ) : Savable (rawBytes n) fun _ => True := by
  intro bs torn notes h
  rw [rawBytes] at h
  split at h
  · cases h
  · next hlt =>
    cases h
    have hlen := padded_length hlt
    have hread := rawBytes_of_le hlen.ge
    rw [List.drop_eq_nil_of_le hlen.le] at hread
    exact ⟨unfinishedVarint_nil, bs, _, _, _, (List.append_nil bs).symm, hread, trivial⟩

/-- A note in front of a savable reader. -/
theorem savable_note_bind {α : Type} (n : Note) {next : Unit → WireReader α} {good : α → Prop}
    (hnext : ∀ u, Savable (next u) good) : Savable (note n >>= next) good :=
  Completable.bind (fun _ => False) (local_note n) (neverShort_note n).completable hnext
    fun _ h => h.elim

/-- A note keeps what follows it open. -/
theorem open_note_bind {α : Type} (n : Note) {next : Unit → WireReader α} {good : α → Prop}
    (hnext : Open (next ()) good) : Open (note n >>= next) good := by
  rcases hnext with ⟨notes, a, h, hgood⟩ | ⟨notes, torn, h⟩
  · refine .inl ⟨n :: notes, a, ?_, hgood⟩
    rw [note_bind_apply, h]
    rfl
  · refine .inr ⟨n :: notes, torn, ?_⟩
    rw [note_bind_apply, h]
    rfl

/-- Integer elements are open: none are missing, or the first one is. -/
theorem open_integers (id : Id) (signed : Bool) (n : ℕ) :
    Open (integers id signed n) fun _ => True := by
  cases n with
  | zero => exact open_pure trivial
  | succ n => exact open_word_bind _

/-- Missing integer elements can be supplied. -/
theorem savable_integers (id : Id) (signed : Bool) (n : ℕ) :
    Savable (integers id signed n) fun _ => True := by
  induction n with
  | zero => exact (neverShort_pure ()).completable
  | succ n ih =>
    exact Completable.bind ((· = 0)) local_word (savable_word (by decide))
      (fun _ => savable_note_bind _ fun _ => ih)
      fun _ _ => open_note_bind _ (open_integers id signed n)

/-- Float elements are open: none are missing, or the first one is. -/
theorem open_floats (id : Id) (fp64 : Bool) (n : ℕ) : Open (floats id fp64 n) fun _ => True := by
  cases n with
  | zero => exact open_pure trivial
  | succ n => cases fp64 <;> exact .inr ⟨[], [], rfl⟩

/-- Missing float elements can be supplied. -/
theorem savable_floats (id : Id) (fp64 : Bool) (n : ℕ) :
    Savable (floats id fp64 n) fun _ => True := by
  induction n with
  | zero => exact (neverShort_pure ()).completable
  | succ n ih =>
    exact Completable.bind _ (local_rawBytes _) (savable_rawBytes _)
      (fun _ => savable_note_bind _ fun _ => ih)
      fun _ _ => open_note_bind _ (open_floats id fp64 n)

/-- Every body in progress can be finished. -/
theorem savable_readBody (body : Resume) : Savable (readBody body) fun _ => True := by
  cases body with
  | none => exact (neverShort_pure ()).completable
  | payload id isBlob total remaining => exact savable_payload id isBlob total remaining
  | arrayInt id signed remaining => exact savable_integers id signed remaining
  | arrayFix id fp64 remaining => exact savable_floats id fp64 remaining

/-- The body of a field is open. -/
theorem open_readBody (body : Resume) : Open (readBody body) fun _ => True := by
  cases body with
  | none => exact open_pure trivial
  | payload id isBlob total remaining =>
    by_cases hrem : remaining ≤ ([] : List UInt8).length
    · have hread := payload_of_le id isBlob total hrem
      rw [List.drop_nil] at hread
      exact .inl ⟨_, (), hread, trivial⟩
    · refine .inr ⟨[], [], ?_⟩
      rw [readBody, payload, if_neg hrem, if_pos rfl]
  | arrayInt id signed remaining => exact open_integers id signed remaining
  | arrayFix id fp64 remaining => exact open_floats id fp64 remaining

/-- Every field in progress can be finished. -/
theorem savable_readField (depth : ℕ) : Savable (readField depth) fun _ => True := by
  have hbody (body : Resume) (depth : ℕ) :
      Savable (readBody body >>= fun _ => pure depth) fun _ => True :=
    Completable.bind _ (local_readBody body) (savable_readBody body)
      (fun _ => (neverShort_pure depth).completable) fun _ _ => open_pure trivial
  refine Completable.bind _ (local_readHead depth) (savable_readHead depth)
    (fun a => hbody a.2 a.1) fun a _ => ?_
  rcases open_readBody a.2 with ⟨notes, u, h, _⟩ | ⟨notes, torn, h⟩
  · exact .inl ⟨notes ++ [], a.1, bind_of_done h _, trivial⟩
  · exact .inr ⟨notes, torn, bind_of_short h _⟩

/-- One end header closes one sequence. -/
theorem readField_end (depth : ℕ) (bs : List UInt8) :
    readField (depth + 1) (7 :: bs) = ⟨[.close [7], .call .sequenceEnd], .done depth bs⟩ := by
  have hheader : header (7 :: bs) = ⟨[.close [7]], .done 7 bs⟩ := by
    have hseven : Leb128.encode 7 = [7] := Leb128.encode_of_lt (by decide)
    have hencode := notedWord_encode headerNote (by decide : 7 < 2 ^ 64) bs
    rw [hseven, List.singleton_append] at hencode
    exact hencode
  have hhead : readHead (depth + 1) (7 :: bs) =
      ⟨[.close [7], .call .sequenceEnd], .done (depth, .none) bs⟩ := by
    rw [readHead, bind_of_done hheader, fieldHead, demand_of_pos (by decide), pure_bind]
    change Report.after ((demand (0 < depth + 1) >>= fun _ => announce depth _ _) bs) _ = _
    rw [demand_of_pos depth.succ_pos, pure_bind]
    rfl
  exact bind_of_done hhead _

/-- End headers close the open sequences. -/
theorem readFields_ends (depth : ℕ) :
    (readFields depth (List.replicate depth 7)).outcome = .done 0 [] := by
  induction depth with
  | zero => rw [List.replicate_zero, readFields_nil]
  | succ depth ih =>
    rw [List.replicate_succ, readFields, exhaust_of_done (readField_end depth _)]
    exact ih

/-- A message read to its end is completed by end headers. -/
theorem decode_ends {bs : List UInt8} {depth : ℕ} {rest : List UInt8}
    (h : (readMessage bs).outcome = .done depth rest) :
    (decode (bs ++ List.replicate depth 7)).result = .ok .complete := by
  have houtcome : (readMessage (bs ++ List.replicate depth 7)).outcome = .done 0 [] := by
    rw [readMessage, readFields, exhaust_append local_readField h]
    exact readFields_ends depth
  rw [decode_result, verdict, houtcome]
  rfl

/-- The bytes of the varint a message ends inside, if it ends inside one. -/
def tornVarint (bs : List UInt8) : List UInt8 :=
  match (readMessage bs).outcome with
  | .short torn => torn
  | _ => []

/-- A message that is not rejected is its `tornVarint` behind bytes that can be completed. -/
theorem decode_saved {bs : List UInt8} (h : (decode bs).result ≠ .error .invalidMsg) :
    UnfinishedVarint (tornVarint bs) ∧ ∃ used, bs = used ++ tornVarint bs ∧
      ∃ s, (decode (used ++ s)).result = .ok .complete := by
  rw [decode_result] at h
  rcases hread : (readMessage bs).outcome with ⟨depth, rest⟩ | torn | _
  · have htorn : tornVarint bs = [] := by rw [tornVarint, hread]
    rw [htorn]
    exact ⟨unfinishedVarint_nil, bs, (List.append_nil bs).symm, _, decode_ends hread⟩
  · have htorn : tornVarint bs = torn := by rw [tornVarint, hread]
    rw [htorn]
    obtain ⟨htears, used, more, depth, hbs, hdone⟩ :=
      exhaust_saved local_readField savable_readField hread
    have hends := decode_ends hdone
    rw [List.append_assoc] at hends
    exact ⟨htears, used, hbs, _, hends⟩
  · exact absurd (verdict_of_invalid hread) h

/-- A rejected message stays rejected with the same callbacks whatever follows. -/
theorem decode_append_of_invalid {bs : List UInt8} (h : (decode bs).result = .error .invalidMsg)
    (s : List UInt8) :
    (decode (bs ++ s)).result = .error .invalidMsg ∧ (decode (bs ++ s)).calls = (decode bs).calls := by
  have hinvalid : (readMessage bs).outcome = .invalid := by
    rw [decode_result, verdict] at h
    split at h
    · cases h
    · cases h
    · assumption
  have hsame : readMessage (bs ++ s) = readMessage bs :=
    exhaust_invalid_append local_readField hinvalid s
  rw [decode_result, decode_calls, decode_calls, hsame]
  exact ⟨verdict_of_invalid hinvalid, rfl⟩

/-- The verdict is exact: a rejection stands whatever follows, and anything else is an
unfinished varint, possibly empty, behind bytes that some continuation completes. -/
theorem decode_verdict_exact (bs : List UInt8) :
    ((decode bs).result = .error .invalidMsg →
      ∀ s, (decode (bs ++ s)).result = .error .invalidMsg ∧
        (decode (bs ++ s)).calls = (decode bs).calls) ∧
    ((decode bs).result ≠ .error .invalidMsg →
      UnfinishedVarint (tornVarint bs) ∧ ∃ used, bs = used ++ tornVarint bs ∧
        ∃ s, (decode (used ++ s)).result = .ok .complete) :=
  ⟨decode_append_of_invalid, decode_saved⟩

/-- A stray end header is rejected for good; a torn header inside a sequence is dropped and
the sequence closed. -/
theorem decode_verdict_exact_sequence :
    (∀ s, (decode ([0x07] ++ s)).result = .error .invalidMsg ∧
      (decode ([0x07] ++ s)).calls = (decode [0x07]).calls) ∧
    UnfinishedVarint (tornVarint [0x06, 0x80]) ∧ ∃ used, [0x06, 0x80] = used ++ tornVarint [0x06, 0x80] ∧
      ∃ s, (decode (used ++ s)).result = .ok .complete :=
  ⟨(decode_verdict_exact [0x07]).1 (by decide +kernel),
    (decode_verdict_exact [0x06, 0x80]).2 (by decide +kernel)⟩

end Sofab
