import Mathlib.Algebra.Order.BigOperators.Group.List
import Sofab.Gluing

/-!
# What the reference reading notes and holds

The payload callbacks of a whole message start their payloads and are empty only for an
empty payload. A head that is still short takes at most three varints, the last unfinished.
-/

namespace Sofab

open Digits Reading Reading.Reader

/-- A property of the callback in a note, if there is one. -/
def Note.Calls (P : Callback → Prop) : Note → Prop
  | .call c => P c
  | _ => True

/-- A property of all noted callbacks. -/
theorem forall_calls {P : Callback → Prop} {notes : List Note} (h : ∀ n ∈ notes, n.Calls P) :
    ∀ c ∈ calls notes, P c := by
  induction notes with
  | nil => exact fun c hc => absurd hc List.not_mem_nil
  | cons note notes ih =>
    have hrest := ih fun n hn => h n (List.mem_cons_of_mem _ hn)
    have hnote := h note List.mem_cons_self
    cases note with
    | call c => exact List.forall_mem_cons.mpr ⟨hnote, hrest⟩
    | varint => exact hrest
    | close => exact hrest
    | raw => exact hrest

section Noting

variable {P : Callback → Prop}

/-- A callback that is noted must have the property itself. -/
theorem noting_call {c : Callback} (h : P c) :
    Noting (Note.Calls P) (note (.call c) : WireReader Unit) :=
  noting_note h

/-- Reading a varint notes no callback. -/
theorem noting_readWord : Noting (Note.Calls P) readWord := by
  intro bs n hn
  rw [readWord] at hn
  split at hn <;> exact absurd hn List.not_mem_nil

/-- A varint notes no callback unless its note is one. -/
theorem noting_notedWord {noted : List UInt8 → ℕ → Note}
    (h : ∀ spelling n, (noted spelling n).Calls P) : Noting (Note.Calls P) (notedWord noted) :=
  noting_readWord.bind fun _ => (noting_note (h _ _)).bind fun _ => noting_pure _

/-- A varint noted as it is spelled notes no callback. -/
theorem noting_word : Noting (Note.Calls P) word := noting_notedWord fun _ _ => trivial

/-- A header notes no callback. -/
theorem noting_header : Noting (Note.Calls P) header := by
  refine noting_notedWord fun spelling h => ?_
  rw [headerNote]
  split <;> trivial

/-- Bytes taken as they are note no callback. -/
theorem noting_rawBytes (n : ℕ) : Noting (Note.Calls P) (rawBytes n) := by
  intro bs m hm
  rw [rawBytes] at hm
  split at hm
  · rw [List.mem_singleton.mp hm]
    trivial
  · exact absurd hm List.not_mem_nil

/-- The callbacks of integer elements. -/
theorem noting_integers {id : Id} {signed : Bool} (h : ∀ value, P (.integer signed id value))
    (n : ℕ) : Noting (Note.Calls P) (integers id signed n) := by
  induction n with
  | zero => exact noting_pure ()
  | succ n ih => exact noting_word.bind fun _ => (noting_call (h _)).bind fun _ => ih

/-- The callbacks of float elements. -/
theorem noting_floats {id : Id} {fp64 : Bool} (h : ∀ bytes, P (.float fp64 id bytes))
    (n : ℕ) : Noting (Note.Calls P) (floats id fp64 n) := by
  induction n with
  | zero => exact noting_pure ()
  | succ n ih => exact (noting_rawBytes _).bind fun _ => (noting_call (h _)).bind fun _ => ih

/-- The callback of a payload. -/
theorem noting_payload {id : Id} {isBlob : Bool} {total remaining : ℕ}
    (h : ∀ chunk, (chunk = [] → remaining = 0) → chunk.length ≤ remaining →
      P (.payload isBlob id total (total - remaining) chunk)) :
    Noting (Note.Calls P) (payload id isBlob total remaining) := by
  intro bs n hn
  have hcases {chunk : List UInt8} (hchunk : chunk = [] → remaining = 0)
      (hlen : chunk.length ≤ remaining)
      (hn : n ∈ [Note.raw chunk, .call (.payload isBlob id total (total - remaining) chunk)]) :
      n.Calls P := by
    rcases List.mem_cons.mp hn with rfl | hn
    · trivial
    · rw [List.mem_singleton.mp hn]
      exact h chunk hchunk hlen
  rw [payload] at hn
  split at hn
  · next hle =>
    refine hcases (fun hnil => ?_) (List.length_take_le _ _) hn
    have hlen := congrArg List.length hnil
    rw [List.length_take, List.length_nil] at hlen
    omega
  · next hlt =>
    split at hn
    · exact absurd hn List.not_mem_nil
    · next hne => exact hcases (fun hnil => absurd hnil hne) (Nat.le_of_not_le hlt) hn

/-- An announcement notes the callback it makes. -/
theorem noting_announce {depth : ℕ} {call : Callback} {body : Resume} (h : P call) :
    Noting (Note.Calls P) (announce depth call body) :=
  (noting_call h).bind fun _ => noting_pure _

/-- What a property must grant for the announcements of heads to have it. -/
structure Announced (P : Callback → Prop) : Prop where
  unsigned (id : Id) (value : Unsigned) : P (.unsigned id value)
  signed (id : Id) (value : Signed) : P (.signed id value)
  fixlenBegin (id : Id) (subtype : FixlenType) (total : ℕ) : P (.fixlenBegin id subtype total)
  arrayBegin (id : Id) (kind : ArrayKind) (count : ℕ) : P (.arrayBegin id kind count)
  sequenceBegin (id : Id) : P (.sequenceBegin id)
  sequenceEnd : P .sequenceEnd

/-- The head of a fixlen field notes its announcement alone. -/
theorem noting_fixlenHead (h : Announced P) (depth : ℕ) (id : Id) :
    Noting (Note.Calls P) (fixlenHead depth id) := by
  refine noting_word.bind fun w => (noting_demand _).bind fun _ => ?_
  split
  · exact (noting_demand _).bind fun _ => noting_announce (h.fixlenBegin _ _ _)
  · exact (noting_demand _).bind fun _ => noting_announce (h.fixlenBegin _ _ _)
  · exact noting_announce (h.fixlenBegin _ _ _)
  · exact noting_announce (h.fixlenBegin _ _ _)
  · exact noting_reject

/-- The head of an integer array notes its announcement alone. -/
theorem noting_integersHead (h : Announced P) (depth : ℕ) (id : Id) (signed : Bool) :
    Noting (Note.Calls P) (integersHead depth id signed) :=
  noting_word.bind fun _ => (noting_demand _).bind fun _ => noting_announce (h.arrayBegin _ _ _)

/-- The head of a float array notes its announcement alone. -/
theorem noting_floatsHead (h : Announced P) (depth : ℕ) (id : Id) :
    Noting (Note.Calls P) (floatsHead depth id) := by
  refine noting_word.bind fun count => (noting_demand _).bind fun _ => noting_word.bind fun w => ?_
  rw [floatsOf]
  split
  · exact noting_announce (h.arrayBegin _ _ _)
  · exact noting_announce (h.arrayBegin _ _ _)
  · exact noting_reject

/-- The callbacks of a head. -/
theorem noting_readHead (h : Announced P) (depth : ℕ) :
    Noting (Note.Calls P) (readHead depth) := by
  refine noting_header.bind fun _ => (noting_demand _).bind fun _ => ?_
  unfold typedHead
  split
  · exact noting_word.bind fun _ => noting_announce (h.unsigned _ _)
  · exact noting_word.bind fun _ => noting_announce (h.signed _ _)
  · exact noting_fixlenHead h _ _
  · exact noting_integersHead h _ _ _
  · exact noting_integersHead h _ _ _
  · exact noting_floatsHead h _ _
  · exact (noting_demand _).bind fun _ => noting_announce (h.sequenceBegin _)
  · exact (noting_demand _).bind fun _ => noting_announce h.sequenceEnd

end Noting

/-- A payload callback that starts its payload and is empty only for an empty one. -/
def Whole (c : Callback) : Prop := Proper c ∧ FromStart c

/-- No announcement is a payload, so all of them are whole. -/
theorem announced_whole : Announced Whole where
  unsigned _ _ := ⟨trivial, trivial⟩
  signed _ _ := ⟨trivial, trivial⟩
  fixlenBegin _ _ _ := ⟨trivial, trivial⟩
  arrayBegin _ _ _ := ⟨trivial, trivial⟩
  sequenceBegin _ := ⟨trivial, trivial⟩
  sequenceEnd := ⟨trivial, trivial⟩

/-- A body of which nothing was read yet. -/
def Fresh : Resume → Prop
  | .payload _ _ total remaining => remaining = total
  | _ => True

/-- An announcement hands on the body that it is given. -/
theorem returning_announce {depth : ℕ} {call : Callback} {body : Resume} (h : Fresh body) :
    Returning (fun a => Fresh a.2) (announce depth call body) :=
  Returning.bind _ fun _ => returning_pure h

/-- A head asks for a fresh body. -/
theorem returning_readHead (depth : ℕ) : Returning (fun a => Fresh a.2) (readHead depth) := by
  refine Returning.bind _ fun _ => Returning.bind _ fun _ => ?_
  unfold typedHead
  split
  · exact Returning.bind _ fun _ => returning_announce trivial
  · exact Returning.bind _ fun _ => returning_announce trivial
  · refine Returning.bind _ fun w => Returning.bind _ fun _ => ?_
    split
    · exact Returning.bind _ fun _ => returning_announce trivial
    · exact Returning.bind _ fun _ => returning_announce trivial
    · exact returning_announce rfl
    · exact returning_announce rfl
    · exact returning_reject
  · exact Returning.bind _ fun _ => Returning.bind _ fun _ => returning_announce trivial
  · exact Returning.bind _ fun _ => Returning.bind _ fun _ => returning_announce trivial
  · refine Returning.bind _ fun _ => Returning.bind _ fun _ => Returning.bind _ fun _ => ?_
    rw [floatsOf]
    split
    · exact returning_announce trivial
    · exact returning_announce trivial
    · exact returning_reject
  · exact Returning.bind _ fun _ => returning_announce trivial
  · exact Returning.bind _ fun _ => returning_announce trivial

/-- What a property must grant for the contents of fields to have it. -/
structure Delivered (P : Callback → Prop) : Prop where
  payload (isBlob : Bool) (id : Id) (total : ℕ) (chunk : List UInt8) :
    (chunk = [] → total = 0) → chunk.length ≤ total → P (.payload isBlob id total 0 chunk)
  integer (signed : Bool) (id : Id) (value : Unsigned) : P (.integer signed id value)
  float (fp64 : Bool) (id : Id) (bytes : List UInt8) : P (.float fp64 id bytes)

/-- The contents of a field are delivered whole: a payload from its start and properly sized. -/
theorem delivered_whole : Delivered Whole where
  payload _ _ _ _ hnil _ := ⟨proper_payload.mpr hnil, fromStart_payload.mpr rfl⟩
  integer _ _ _ := ⟨proper_integer _ _ _, fromStart_integer _ _ _⟩
  float _ _ _ := ⟨proper_float _ _ _, fromStart_float _ _ _⟩

/-- The callbacks of a fresh body. -/
theorem noting_readBody {P : Callback → Prop} (hdelivered : Delivered P) {body : Resume}
    (h : Fresh body) : Noting (Note.Calls P) (readBody body) := by
  cases body with
  | none => exact noting_pure ()
  | payload id isBlob total remaining =>
    have hrem : remaining = total := h
    subst hrem
    refine noting_payload fun chunk hchunk hlen => ?_
    rw [Nat.sub_self]
    exact hdelivered.payload isBlob id remaining chunk hchunk hlen
  | arrayInt id signed remaining => exact noting_integers (hdelivered.integer signed id) remaining
  | arrayFix id fp64 remaining => exact noting_floats (hdelivered.float fp64 id) remaining

/-- A body whose missing part is empty only if it is empty as a whole. -/
def ProperBody : Resume → Prop
  | .payload _ _ total remaining => remaining = 0 → total = 0
  | _ => True

/-- A body of which nothing was read yet is missing as a whole. -/
theorem Fresh.properBody {body : Resume} (h : Fresh body) : ProperBody body := by
  cases body with
  | payload id isBlob total remaining => exact fun hrem => h ▸ hrem
  | _ => trivial

/-- The callbacks of a body are properly sized. -/
theorem readBody_proper {body : Resume} (h : ProperBody body) (bs : List UInt8) :
    ∀ c ∈ calls (readBody body bs).notes, Proper c := by
  refine forall_calls ((?_ : Noting (Note.Calls Proper) (readBody body)) bs)
  cases body with
  | none => exact noting_pure ()
  | payload id isBlob total remaining =>
    exact noting_payload fun chunk hchunk _ => proper_payload.mpr fun hnil => h (hchunk hnil)
  | arrayInt id signed remaining => exact noting_integers (fun _ => proper_integer _ _ _) remaining
  | arrayFix id fp64 remaining => exact noting_floats (fun _ => proper_float _ _ _) remaining

/-- The callbacks of the fields of a message. -/
theorem readFields_calls {P : Callback → Prop} (hannounced : Announced P)
    (hdelivered : Delivered P) (depth : ℕ) (bs : List UInt8) :
    ∀ c ∈ calls (readFields depth bs).notes, P c :=
  forall_calls (exhaust_noting (fun depth =>
    (noting_readHead hannounced depth).bind_of_returning (returning_readHead depth)
      fun _ hfresh => (noting_readBody hdelivered hfresh).bind fun _ => noting_pure _) depth bs)

/-- The callbacks of the fields of a message are whole. -/
theorem readFields_whole (depth : ℕ) (bs : List UInt8) :
    ∀ c ∈ calls (readFields depth bs).notes, Whole c :=
  readFields_calls announced_whole delivered_whole depth bs

/-! ## Spellings -/

/-- A minimal spelling is read as it is, whatever follows. -/
theorem readWord_encode {value : ℕ} (hvalue : value < 2 ^ 64) (tail : List UInt8) :
    readWord (Leb128.encode value ++ tail) =
      ⟨[], .done (Leb128.encode value, value) tail⟩ := by
  have hbound : value < 2 * 128 ^ fullGroups := hvalue
  rw [readWord, Leb128.read_encode hbound tail]
  simp

/-- A noted minimal spelling. -/
theorem notedWord_encode (noted : List UInt8 → ℕ → Note) {value : ℕ} (hvalue : value < 2 ^ 64)
    (tail : List UInt8) :
    notedWord noted (Leb128.encode value ++ tail) =
      ⟨[noted (Leb128.encode value) value], .done value tail⟩ := by
  rw [notedWord, bind_of_done (readWord_encode hvalue tail)]
  rfl

/-- A spelling that was read reads as its value. -/
theorem readWord_done {bs rest spelling : List UInt8} {notes : List Note} {value : ℕ}
    (h : readWord bs = ⟨notes, .done (spelling, value) rest⟩) :
    notes = [] ∧ bs = spelling ++ rest ∧ spelling ≠ [] ∧
      Leb128.read fullGroups spelling = .done value [] := by
  rw [readWord] at h
  split at h
  · next v rest' hread =>
    cases h
    obtain ⟨z, hz, hne, _, hlocal⟩ := Leb128.read_done hread
    have hlen : bs.length - rest.length = z.length := by
      rw [hz, List.length_append, Nat.add_sub_cancel]
    have htake : bs.take (bs.length - rest.length) = z := by
      rw [hlen, hz, List.take_left]
    have halone := hlocal []
    rw [List.append_nil] at halone
    rw [htake]
    exact ⟨rfl, hz, hne, halone⟩
  · cases h
  · cases h

/-- A varint that is short leaves all its bytes. -/
theorem readWord_short {bs torn : List UInt8} {notes : List Note}
    (h : readWord bs = ⟨notes, .short torn⟩) :
    notes = [] ∧ torn = bs ∧ Leb128.read fullGroups bs = .short := by
  rw [readWord] at h
  split at h
  · cases h
  · next hread =>
    cases h
    exact ⟨rfl, rfl, hread⟩
  · cases h

/-- A varint that was read is noted by its spelling. -/
theorem notedWord_done {noted : List UInt8 → ℕ → Note} {bs rest : List UInt8} {notes : List Note}
    {value : ℕ} (h : notedWord noted bs = ⟨notes, .done value rest⟩) :
    ∃ spelling, notes = [noted spelling value] ∧ bs = spelling ++ rest ∧ spelling ≠ [] ∧
      Leb128.read fullGroups spelling = .done value [] := by
  obtain ⟨first, ⟨spelling, v⟩, mid, second, hread, hnext, rfl⟩ := bind_eq_done h
  obtain ⟨rfl, hfacts⟩ := readWord_done hread
  cases hnext
  exact ⟨spelling, rfl, hfacts⟩

/-! ## The words of a head -/

/-- The bytes of an unfinished varint. -/
def UnfinishedVarint (bs : List UInt8) : Prop := Leb128.read fullGroups bs = .short

/-- No bytes at all are an unfinished varint. -/
theorem unfinishedVarint_nil : UnfinishedVarint [] := rfl

/-- Every byte of an unfinished varint asks for more. -/
theorem UnfinishedVarint.continues {bs : List UInt8} (h : UnfinishedVarint bs) :
    bs.length ≤ 9 ∧ ∀ c ∈ bs, 128 ≤ c.toNat :=
  Leb128.read_short_iff.mp h

/-- A varint can be unfinished only in its first nine bytes. -/
theorem shortWithin_readWord : ShortWithin 9 readWord := by
  intro bs notes torn h
  obtain ⟨-, -, hread⟩ := readWord_short h
  exact (Leb128.read_short_iff.mp hread).1

/-- A varint has at most ten bytes. -/
theorem doneWithin_readWord : DoneWithin 10 readWord := by
  intro bs notes a rest h
  rw [readWord] at h
  split at h
  · next value rest' hread =>
    cases h
    obtain ⟨z, hz, -, hlen, -⟩ := Leb128.read_done hread
    rw [hz, List.length_append]
    exact Nat.add_le_add_right hlen _
  · cases h
  · cases h

/-- An announcement needs no byte. -/
theorem neverShort_announce (depth : ℕ) (call : Callback) (body : Resume) :
    NeverShort (announce depth call body) :=
  (neverShort_note _).bind fun _ => neverShort_pure _

/-- The bytes of one whole varint. -/
def WholeWord (spelling : List UInt8) : Prop :=
  ∃ value, Leb128.read fullGroups spelling = .done value []

/-- A whole varint has at most ten bytes. -/
theorem WholeWord.length_le {w : List UInt8} (h : WholeWord w) : w.length ≤ 10 := by
  obtain ⟨value, hread⟩ := h
  have hdone : readWord w = ⟨[], .done (w.take (w.length - 0), value) []⟩ := by
    rw [readWord, hread]
    rfl
  exact doneWithin_readWord hdone

/-- A zero byte finishes an unfinished varint. -/
theorem UnfinishedVarint.whole {bs : List UInt8} (h : UnfinishedVarint bs) :
    WholeWord (bs ++ [0]) := by
  obtain ⟨hlen, hbytes⟩ := h.continues
  refine ⟨packed 7 ((bs ++ [0]).map UInt8.toNat), ?_⟩
  rcases Nat.lt_or_eq_of_le hlen with hlt | heq
  · exact Leb128.read_terminated fullGroups bs 0 [] hlt hbytes (by decide)
  · have hlast := Leb128.read_last bs 0 [] hbytes
    rw [heq] at hlast
    exact hlast

/-- A zero byte is a whole varint. -/
theorem wholeWord_zero : WholeWord [0] := unfinishedVarint_nil.whole

/-- A reader of so many varints. -/
abbrev ReadsWords {α : Type} (n : ℕ) (r : WireReader α) : Prop :=
  ReadsItems WholeWord UnfinishedVarint n r

/-- However it is noted, a varint is one word. -/
theorem readsWords_notedWord (noted : List UInt8 → ℕ → Note) : ReadsWords 1 (notedWord noted) where
  done h := by
    obtain ⟨spelling, -, rfl, -, hread⟩ := notedWord_done h
    refine ⟨[spelling], rfl, ?_, ?_⟩
    · exact List.forall_mem_singleton.mpr ⟨_, hread⟩
    · rw [List.flatten_singleton]
  short {bs _ _} h := by
    rcases bind_eq_short h with hshort | ⟨_, _, _, _, -, hnote, -⟩
    · obtain ⟨-, -, hread⟩ := readWord_short hshort
      refine ⟨[], bs, Nat.zero_lt_one, ?_, hread, rfl⟩
      exact fun item hitem => absurd hitem List.not_mem_nil
    · cases hnote

/-- A varint noted as it is spelled is one word. -/
theorem readsWords_word : ReadsWords 1 word := readsWords_notedWord _

/-- An announcement reads no word. -/
theorem readsWords_announce (depth : ℕ) (call : Callback) (body : Resume) :
    ReadsWords 0 (announce depth call body) :=
  (readsItems_note _).bind_of_zero fun _ => readsItems_pure _

/-- Past its header the head of a fixlen field is one word. -/
theorem readsWords_fixlenHead (depth : ℕ) (id : Id) : ReadsWords 1 (fixlenHead depth id) := by
  refine readsWords_word.bind (n := 0) fun w =>
    ReadsItems.bind_of_zero (readsItems_demand _) fun _ => ?_
  split
  · exact (readsItems_demand _).bind_of_zero fun _ => readsWords_announce _ _ _
  · exact (readsItems_demand _).bind_of_zero fun _ => readsWords_announce _ _ _
  · exact readsWords_announce _ _ _
  · exact readsWords_announce _ _ _
  · exact readsItems_reject 0

/-- Past its header the head of an integer array is one word. -/
theorem readsWords_integersHead (depth : ℕ) (id : Id) (signed : Bool) :
    ReadsWords 1 (integersHead depth id signed) :=
  readsWords_word.bind fun _ => (readsItems_demand _).bind_of_zero fun _ =>
    readsWords_announce _ _ _

/-- Past its header the head of a float array is two words. -/
theorem readsWords_floatsHead (depth : ℕ) (id : Id) : ReadsWords 2 (floatsHead depth id) := by
  refine readsWords_word.bind (n := 1) fun count =>
    ReadsItems.bind_of_zero (readsItems_demand _) fun _ => ?_
  refine readsWords_word.bind (n := 0) fun w => ?_
  rw [floatsOf]
  split
  · exact readsWords_announce _ _ _
  · exact readsWords_announce _ _ _
  · exact readsItems_reject 0

/-- How many varints a wire type has behind its header, up to the body. -/
def wordsBehind (wireType : ℕ) : ℕ :=
  if wireType < 5 then 1 else if wireType = 5 then 2 else 0

/-- No wire type has more than two varints behind its header. -/
theorem wordsBehind_le (wireType : ℕ) : wordsBehind wireType ≤ 2 := by
  rw [wordsBehind]
  split
  · decide
  split
  · decide
  · decide

/-- Past its header a head has the words of its wire type. -/
theorem readsWords_typedHead (depth : ℕ) (id : Id) (wireType : ℕ) :
    ReadsWords (wordsBehind wireType) (typedHead depth id wireType) := by
  unfold typedHead
  split
  · exact readsWords_word.bind fun _ => readsWords_announce _ _ _
  · exact readsWords_word.bind fun _ => readsWords_announce _ _ _
  · exact readsWords_fixlenHead _ _
  · exact readsWords_integersHead _ _ _
  · exact readsWords_integersHead _ _ _
  · exact readsWords_floatsHead _ _
  · exact ReadsItems.bind_of_zero (readsItems_demand _) fun _ => readsWords_announce _ _ _
  · next h0 h1 h2 h3 h4 h5 _ =>
    simp only [imp_false] at h0 h1 h2 h3 h4
    have hscalar : ¬wireType < 5 := by omega
    rw [wordsBehind, if_neg hscalar, if_neg h5]
    exact ReadsItems.bind_of_zero (readsItems_demand _) fun _ => readsWords_announce _ _ _

/-- The words of the head of one field: a header, and the varints its wire type has behind
it. -/
inductive HeadWords : List (List UInt8) → Prop
  | intro {header : List UInt8} {value : ℕ} {behind : List (List UInt8)}
      (reads : Leb128.read fullGroups header = .done value [])
      (count : behind.length = wordsBehind (value % 8))
      (whole : ∀ w ∈ behind, WholeWord w) : HeadWords (header :: behind)

/-- The words of a head are whole varints. -/
theorem HeadWords.whole {words : List (List UInt8)} (h : HeadWords words) :
    ∀ w ∈ words, WholeWord w := by
  cases h with
  | intro reads count whole => exact List.forall_mem_cons.mpr ⟨⟨_, reads⟩, whole⟩

/-- The head of a field has at most three words. -/
theorem HeadWords.length_le {words : List (List UInt8)} (h : HeadWords words) :
    words.length ≤ 3 := by
  cases h with
  | intro reads count whole =>
    rw [List.length_cons, count]
    exact Nat.succ_le_succ (wordsBehind_le _)

/-- Which words are behind a header is said by its wire type. -/
theorem readsWords_fieldHead (depth h : ℕ) :
    ReadsWords (wordsBehind (h % 8)) (fieldHead depth h) :=
  ReadsItems.bind_of_zero (readsItems_demand _) fun _ => readsWords_typedHead _ _ _

/-- What is there of an unfinished head begins the words of one, and some are missing. -/
theorem headWords_of_short {depth : ℕ} {bs torn : List UInt8} {notes : List Note}
    (h : readHead depth bs = ⟨notes, .short torn⟩) :
    ∃ words, HeadWords words ∧ bs <+: words.flatten ∧ bs ≠ words.flatten := by
  rcases bind_eq_short h with hheader | ⟨_, value, mid, _, hheader, hfield, -⟩
  · obtain ⟨items, last, hlen, -, hlast, rfl⟩ := (readsWords_notedWord _).short hheader
    obtain rfl := List.length_eq_zero_iff.mp (Nat.lt_one_iff.mp hlen)
    obtain ⟨value, hread⟩ := hlast.whole
    refine ⟨(last ++ [0]) :: List.replicate (wordsBehind (value % 8)) [0],
      .intro hread List.length_replicate fun w hw => ?_, ?_, ?_⟩
    · rw [List.eq_of_mem_replicate hw]
      exact wholeWord_zero
    · rw [List.flatten_cons, List.append_assoc]
      exact List.prefix_append _ _
    · rw [List.flatten_cons, List.append_assoc]
      intro heq
      cases List.self_eq_append_right.mp heq
  · obtain ⟨spelling, -, rfl, -, hread⟩ := notedWord_done hheader
    obtain ⟨items, last, hlen, hitems, hlast, rfl⟩ := (readsWords_fieldHead depth value).short hfield
    obtain ⟨behind, hcount, hwhole, hbegins, hmissing⟩ :=
      exists_whole_of_short hlen hitems wholeWord_zero (List.cons_ne_nil 0 []) hlast.whole
    refine ⟨spelling :: behind, .intro hread hcount hwhole, ?_, ?_⟩
    · rw [List.flatten_cons]
      exact (List.prefix_append_right_inj spelling).mpr hbegins
    · rw [List.flatten_cons]
      exact fun heq => hmissing (List.append_cancel_left heq)

/-- The words of a head fill the carry at most. -/
theorem HeadWords.flatten_length_le {words : List (List UInt8)} (h : HeadWords words) :
    words.flatten.length ≤ carryCap := by
  have hwhole : ∀ n ∈ words.map List.length, n ≤ 10 := by
    intro n hn
    obtain ⟨w, hw, rfl⟩ := List.mem_map.mp hn
    exact (h.whole w hw).length_le
  have hsum := List.sum_le_card_nsmul _ 10 hwhole
  have hcount := h.length_le
  rw [List.length_map, nsmul_eq_mul, Nat.cast_id] at hsum
  rw [List.length_flatten]
  change _ ≤ 30
  omega

/-- An unfinished head has at most 29 bytes. -/
theorem shortWithin_readHead (depth : ℕ) : ShortWithin 29 (readHead depth) := by
  intro bs notes torn h
  obtain ⟨words, hwords, hbegins, hmissing⟩ := headWords_of_short h
  have hfull : words.flatten.length ≤ 30 := hwords.flatten_length_le
  have hlt : bs.length < words.flatten.length :=
    lt_of_le_of_ne hbegins.length_le fun heq => hmissing (hbegins.eq_of_length heq)
  omega

end Sofab
