import Sofab.Contract
import Sofab.Restart
import Sofab.Visitor

/-!
# Ceilings on declared sizes

The decoder has no limits of a receiver of its own: it announces a length or a count before any
byte behind it. A receiver judges what is announced against the ceilings of one field, which it
finds by following the sequences that lead to it, and a consumer lets that judgement stand before
whatever the decoder reports of the same bytes, and for good.
-/

namespace Sofab

open IStream Reading Reading.Reader

/-- The ceilings of a field and the sequences that it is nested in, outermost first. -/
structure Ceilings where
  frames : List Id
  fieldId : Id
  maxDynStringLen : Option ℕ
  maxDynBlobLen : Option ℕ
  maxDynArrayCount : Option ℕ
  schemaMaxlen : Option ℕ
  deriving DecidableEq, Repr

/-- The receiving half. -/
structure Receiver where
  ceilings : Ceilings
  stack : List Id
  verdict : Option Error
  calls : ℕ
  materialized : ℕ
  deriving DecidableEq

namespace Receiver

/-- At the top, with no verdict. -/
def new (ceilings : Ceilings) : Receiver := ⟨ceilings, [], none, 0, 0⟩

/-- The decoder is inside the bound sequences and nowhere deeper. -/
def atBoundDepth (r : Receiver) : Bool := r.stack == r.ceilings.frames

/-- The field has the id that is bound, and is where the bound one is. -/
def isBoundField (r : Receiver) (id : Id) : Bool := id == r.ceilings.fieldId && r.atBoundDepth

/-- Measure a declared size. A field that the schema bounds carries no cap of the receiver. -/
def judge (r : Receiver) (id : Id) (declared : ℕ) (cap : Option ℕ) : Receiver :=
  if !r.isBoundField id || r.verdict.isSome then r
  else
    match r.ceilings.schemaMaxlen with
    | some maxlen => if maxlen < declared then { r with verdict := some .invalidMsg } else r
    | none =>
      match cap with
      | some cap => if cap < declared then { r with verdict := some .limitExceeded } else r
      | none => r

/-- Count what the bound field delivers. -/
def materialize (r : Receiver) (id : Id) (amount : ℕ) : Receiver :=
  if r.isBoundField id then { r with materialized := r.materialized + amount } else r

/-- The callback itself counts too. -/
def called (r : Receiver) : Receiver := { r with calls := r.calls + 1 }

/-- Announced sizes are judged, delivered values counted and sequences followed. -/
def hears (r : Receiver) : Callback → Receiver
  | .fixlenBegin id subtype total =>
    match subtype with
    | .str => r.called.judge id total r.ceilings.maxDynStringLen
    | .blob => r.called.judge id total r.ceilings.maxDynBlobLen
    -- the width of a float is bounded by the format
    | .fp32 => r.called
    | .fp64 => r.called
  | .arrayBegin id _ count => r.called.judge id count r.ceilings.maxDynArrayCount
  | .unsigned id _ => r.called.materialize id 1
  | .signed id _ => r.called.materialize id 1
  | .fp32 id _ => r.called.materialize id 1
  | .fp64 id _ => r.called.materialize id 1
  | .string id _ _ chunk => r.called.materialize id chunk.length
  | .blob id _ _ chunk => r.called.materialize id chunk.length
  | .sequenceBegin id => { r.called with stack := r.stack ++ [id] }
  | .sequenceEnd => { r.called with stack := r.stack.dropLast }

end Receiver

/-- A decoder and its receiver. -/
structure Consumer where
  stream : IStream
  receiver : Receiver
  latched : Option Error
  consumed : ℕ

namespace Consumer

/-- A new decoder and a new receiver. -/
def new (ceilings : Ceilings) : Consumer := ⟨.new, .new ceilings, none, 0⟩

/-- Feed a chunk: a verdict is raised again and the bytes are not touched. -/
def feed (con : Consumer) (chunk : List UInt8) : Consumer × Except Error Status :=
  match con.latched with
  | some terminal => (con, .error terminal)
  | none =>
    let fed := IStream.feed chunk con.stream
    let receiver := listen Receiver.hears con.receiver fed.calls
    let con := { con with
      stream := fed.is, receiver := receiver, consumed := con.consumed + chunk.length }
    match receiver.verdict with
    | some raised => ({ con with latched := some raised }, .error raised)
    | none =>
      match fed.result with
      | .error malformed => ({ con with latched := some malformed }, .error malformed)
      | .ok status => (con, .ok status)

/-- What a caller does with `feed`: it feeds chunks until one is rejected, and keeps what the last
one fed was answered. -/
def feedEach (con : Consumer) (last : Except Error Status) :
    List (List UInt8) → Consumer × Except Error Status
  | [] => (con, last)
  | chunk :: rest =>
    match con.feed chunk with
    | (con, .error e) => (con, .error e)
    | (con, .ok status) => con.feedEach (.ok status) rest

/-- Feed a whole case. It panics if a chunk before the last is answered anything but `Incomplete` or
a rejection. -/
def feedAll (con : Consumer) (last : Except Error Status) :
    List (List UInt8) → Consumer × Option (Except Error Status)
  | [] => (con, some last)
  | chunk :: rest =>
    match con.feed chunk with
    | (con, .error e) => (con, some (.error e))
    | (con, .ok status) =>
      if rest ≠ [] ∧ status ≠ .incomplete then (con, none) else con.feedAll (.ok status) rest

/-- Where it does not panic, a whole case is fed chunk by chunk. -/
theorem feedAll_of_some (con : Consumer) (last : Except Error Status) (chunks : List (List UInt8))
    {answer : Except Error Status} (h : (con.feedAll last chunks).2 = some answer) :
    (con.feedEach last chunks).2 = answer := by
  induction chunks generalizing con last with
  | nil => exact Option.some.inj h
  | cons chunk rest ih =>
    revert h
    rw [feedAll, feedEach]
    rcases con.feed chunk with ⟨con', e | status⟩
    · exact Option.some.inj
    · intro h
      simp only at h ⊢
      split at h
      · cases h
      · exact ih con' _ h

end Consumer

/-! ## What is judged -/

/-- The bound that applies and what it is to break it. -/
def Ceilings.limit (c : Ceilings) (cap : Option ℕ) : Option (ℕ × Error) :=
  (c.schemaMaxlen.map (·, .invalidMsg)).or (cap.map (·, .limitExceeded))

/-- What it is to declare a size. -/
def Ceilings.breach (c : Ceilings) (cap : Option ℕ) (declared : ℕ) : Option Error :=
  (c.limit cap).bind fun limit => if limit.1 < declared then some limit.2 else none

/-- What it is to make a callback inside the sequences of `stack`. -/
def Ceilings.answer (c : Ceilings) (stack : List Id) : Callback → Option Error
  | .fixlenBegin id .str total =>
    if stack = c.frames ∧ id = c.fieldId then c.breach c.maxDynStringLen total else none
  | .fixlenBegin id .blob total =>
    if stack = c.frames ∧ id = c.fieldId then c.breach c.maxDynBlobLen total else none
  | .arrayBegin id _ count =>
    if stack = c.frames ∧ id = c.fieldId then c.breach c.maxDynArrayCount count else none
  | _ => none

/-- The sequences that are open behind a callback. -/
def inside (stack : List Id) : Callback → List Id
  | .sequenceBegin id => stack ++ [id]
  | .sequenceEnd => stack.dropLast
  | _ => stack

/-- The first breach among callbacks. -/
def Ceilings.raised (c : Ceilings) (stack : List Id) : List Callback → Option Error
  | [] => none
  | made :: cs => (c.answer stack made).or (c.raised (inside stack made) cs)

namespace Receiver

variable {r r' : Receiver}

/-- A judgement is passed once, on the bound field. -/
theorem judge_eq (r : Receiver) (id : Id) (declared : ℕ) (cap : Option ℕ) :
    r.judge id declared cap = { r with
      verdict := r.verdict.or (if r.stack = r.ceilings.frames ∧ id = r.ceilings.fieldId
        then r.ceilings.breach cap declared else none) } := by
  obtain ⟨c, stack, verdict, calls, materialized⟩ := r
  have hbound : (Receiver.mk c stack verdict calls materialized).isBoundField id = true ↔
      stack = c.frames ∧ id = c.fieldId := by
    simp [isBoundField, atBoundDepth, and_comm]
  unfold judge
  cases verdict with
  | some raised => simp
  | none =>
    by_cases hfield : stack = c.frames ∧ id = c.fieldId
    · rw [hbound.mpr hfield, if_pos hfield]
      unfold Ceilings.breach Ceilings.limit
      cases c.schemaMaxlen <;> cases cap <;> simp <;> split <;> rfl
    · rw [Bool.eq_false_of_not_eq_true (mt hbound.mp hfield), if_neg hfield]
      rfl

/-- Counting what is delivered judges nothing. -/
theorem materialize_eq (r : Receiver) (id : Id) (amount : ℕ) :
    ∃ n, r.materialize id amount = { r with materialized := n } := by
  unfold materialize
  split
  · exact ⟨_, rfl⟩
  · exact ⟨_, rfl⟩

/-- A receiver judges a callback and follows it. -/
structure Follows (r : Receiver) (c : Callback) (r' : Receiver) : Prop where
  ceilings : r'.ceilings = r.ceilings
  stack : r'.stack = inside r.stack c
  verdict : r'.verdict = r.verdict.or (r.ceilings.answer r.stack c)

/-- Judging a declared size follows the callback that declares it. -/
theorem follows_judge (r : Receiver) (c : Callback) (id : Id) (declared : ℕ) (cap : Option ℕ)
    (hstack : inside r.stack c = r.stack)
    (hanswer : r.ceilings.answer r.stack c = if r.stack = r.ceilings.frames ∧ id = r.ceilings.fieldId
      then r.ceilings.breach cap declared else none) :
    r.Follows c (r.called.judge id declared cap) := by
  rw [judge_eq]
  exact ⟨rfl, hstack.symm, congrArg r.verdict.or hanswer.symm⟩

/-- Counting follows a callback that breaks no ceiling and opens or closes nothing. -/
theorem follows_materialize (r : Receiver) (c : Callback) (id : Id) (amount : ℕ)
    (hstack : inside r.stack c = r.stack) (hanswer : r.ceilings.answer r.stack c = none) :
    r.Follows c (r.called.materialize id amount) := by
  obtain ⟨n, hn⟩ := r.called.materialize_eq id amount
  rw [hn]
  refine ⟨rfl, hstack.symm, ?_⟩
  rw [hanswer, Option.or_none]
  rfl

/-- A receiver follows every callback. -/
theorem follows_hears (r : Receiver) (c : Callback) : r.Follows c (r.hears c) := by
  have hquiet (answer : r.ceilings.answer r.stack c = none) :
      r.verdict = r.verdict.or (r.ceilings.answer r.stack c) := by
    rw [answer, Option.or_none]
  cases c with
  | unsigned id value => exact r.follows_materialize _ id 1 rfl rfl
  | signed id value => exact r.follows_materialize _ id 1 rfl rfl
  | fp32 id value => exact r.follows_materialize _ id 1 rfl rfl
  | fp64 id value => exact r.follows_materialize _ id 1 rfl rfl
  | string id total offset chunk => exact r.follows_materialize _ id chunk.length rfl rfl
  | blob id total offset chunk => exact r.follows_materialize _ id chunk.length rfl rfl
  | fixlenBegin id subtype total =>
    cases subtype with
    | fp32 => exact ⟨rfl, rfl, hquiet rfl⟩
    | fp64 => exact ⟨rfl, rfl, hquiet rfl⟩
    | str => exact r.follows_judge _ id total _ rfl rfl
    | blob => exact r.follows_judge _ id total _ rfl rfl
  | arrayBegin id kind count => exact r.follows_judge _ id count _ rfl rfl
  | sequenceBegin id => exact ⟨rfl, rfl, hquiet rfl⟩
  | sequenceEnd => exact ⟨rfl, rfl, hquiet rfl⟩

/-- Over a run of callbacks a receiver has the verdict it had, or that of the first breach. -/
theorem listen_verdict (r : Receiver) (cs : List Callback) :
    (listen hears r cs).verdict = r.verdict.or (r.ceilings.raised r.stack cs) := by
  induction cs generalizing r with
  | nil => exact (Option.or_none).symm
  | cons c cs ih =>
    have hfollows := r.follows_hears c
    have hrest : (listen hears r (c :: cs)).verdict = _ := ih (r.hears c)
    rw [hrest, hfollows.ceilings, hfollows.stack, hfollows.verdict, Option.or_assoc]
    rfl

/-- Two receivers that differ at most in what they counted. -/
structure Alike (r r' : Receiver) : Prop where
  ceilings : r.ceilings = r'.ceilings
  stack : r.stack = r'.stack
  verdict : r.verdict = r'.verdict

/-- Receivers that are alike stay so over a callback. -/
theorem Alike.hears {r r' : Receiver} (h : r.Alike r') (c : Callback) :
    (r.hears c).Alike (r'.hears c) := by
  have hfollows := r.follows_hears c
  have hfollows' := r'.follows_hears c
  refine ⟨?_, ?_, ?_⟩
  · rw [hfollows.ceilings, hfollows'.ceilings, h.ceilings]
  · rw [hfollows.stack, hfollows'.stack, h.stack]
  · rw [hfollows.verdict, hfollows'.verdict, h.ceilings, h.stack, h.verdict]

/-- A payload is only counted. -/
theorem alike_payload (r : Receiver) (isBlob : Bool) (id : Id) (total offset : ℕ)
    (chunk : List UInt8) : (r.hears (.payload isBlob id total offset chunk)).Alike r := by
  have hfollows := r.follows_hears (.payload isBlob id total offset chunk)
  refine ⟨hfollows.ceilings, hfollows.stack.trans ?_, hfollows.verdict.trans ?_⟩
  · cases isBlob <;> rfl
  · cases isBlob <;> exact Option.or_none

/-- What is alike to the same is alike. -/
theorem Alike.trans {r₁ r₂ r₃ : Receiver} (h : r₁.Alike r₂) (h' : r₂.Alike r₃) : r₁.Alike r₃ :=
  ⟨h.ceilings.trans h'.ceilings, h.stack.trans h'.stack, h.verdict.trans h'.verdict⟩

/-- Being alike goes both ways. -/
theorem Alike.symm {r r' : Receiver} (h : r.Alike r') : r'.Alike r :=
  ⟨h.ceilings.symm, h.stack.symm, h.verdict.symm⟩

/-- In how many pieces a payload comes is only counted. -/
theorem seamless : Seamless hears hears Alike (fun _ _ _ _ => Alike) where
  call h _ _ := h.hears _
  first h _ _ := (alike_payload _ _ _ _ _ _).trans h
  next h _ _ _ := (alike_payload _ _ _ _ _ _).trans h
  last h _ _ _ := ((alike_payload _ _ _ _ _ _).trans h).trans (alike_payload _ _ _ _ _ _).symm

end Receiver

/-! ## The verdict of a consumer -/

/-- What a receiver's verdict and the decoder's make together. -/
def dominated (verdict : Option Error) (result : Except Error Status) : Except Error Status :=
  match verdict with
  | some raised => .error raised
  | none => result

/-- The only error of a stream. -/
theorem Fed.error_eq {bytes : List UInt8} {is : IStream} (h : Fed bytes is) {chunk : List UInt8}
    {e : Error} (herror : (IStream.feed chunk is).result = .error e) : e = .invalidMsg := by
  have hresult : (IStream.feed chunk is).result = .error .invalidMsg := by
    rcases h.follows with hfollows | hinvalid
    · rcases hfollows.feed chunk with ⟨-, hok⟩ | ⟨-, hrejected⟩
      · rw [hok] at herror
        cases herror
      · exact hrejected
    · rw [feed_of_invalid hinvalid]
  rw [hresult] at herror
  exact (Except.error.inj herror).symm

namespace Consumer

variable {con : Consumer} {bytes : List UInt8} {e : Error}

/-- A latched verdict is raised again, and nothing changes. -/
theorem feed_latched (h : con.latched = some e) (chunk : List UInt8) :
    con.feed chunk = (con, .error e) := by
  rw [feed, h]

/-- The receiver after a chunk. -/
def told (con : Consumer) (chunk : List UInt8) : Receiver :=
  listen Receiver.hears con.receiver (IStream.feed chunk con.stream).calls

/-- The ways a consumer with nothing latched can answer a chunk. -/
inductive Answered (con : Consumer) (chunk : List UInt8) :
    Consumer × Except Error Status → Prop
  | raised {e : Error} (verdict : (con.told chunk).verdict = some e) :
      Answered con chunk (⟨(IStream.feed chunk con.stream).is, con.told chunk, some e,
        con.consumed + chunk.length⟩, .error e)
  | rejected {e : Error} (verdict : (con.told chunk).verdict = none)
      (result : (IStream.feed chunk con.stream).result = .error e) :
      Answered con chunk (⟨(IStream.feed chunk con.stream).is, con.told chunk, some e,
        con.consumed + chunk.length⟩, .error e)
  | wentOn {status : Status} (verdict : (con.told chunk).verdict = none)
      (result : (IStream.feed chunk con.stream).result = .ok status) :
      Answered con chunk (⟨(IStream.feed chunk con.stream).is, con.told chunk, none,
        con.consumed + chunk.length⟩, .ok status)

/-- With nothing latched a consumer answers in one of the three ways. -/
theorem feed_answered (h : con.latched = none) (chunk : List UInt8) :
    Answered con chunk (con.feed chunk) := by
  rw [feed, h]
  simp only
  cases hverdict : (con.told chunk).verdict with
  | some raised =>
    rw [told] at hverdict
    rw [hverdict]
    exact .raised hverdict
  | none =>
    cases hresult : (IStream.feed chunk con.stream).result with
    | error malformed =>
      rw [told] at hverdict
      rw [hverdict]
      exact .rejected hverdict hresult
    | ok status =>
      rw [told] at hverdict
      rw [hverdict]
      exact .wentOn hverdict hresult

/-- What the chunks are answered is the ceiling's verdict, else the stream's. -/
theorem feedEach_answer (hopen : con.latched = none) (hfed : Fed bytes con.stream)
    (last : Except Error Status) (chunk : List UInt8) (rest : List (List UInt8)) :
    let run := IStream.feedAll con.stream chunk rest
    (con.feedEach last (chunk :: rest)).2 =
      dominated (listen Receiver.hears con.receiver run.calls).verdict run.result := by
  have hanswered := feed_answered hopen chunk
  induction rest generalizing con bytes chunk last with
  | nil =>
    rw [feedEach]
    generalize con.feed chunk = answer at hanswered
    cases hanswered with
    | raised verdict =>
      rw [told] at verdict
      simp only [IStream.feedAll, verdict]
      rfl
    | rejected verdict result =>
      rw [told] at verdict
      simp only [IStream.feedAll, verdict, result]
      rfl
    | wentOn verdict result =>
      rw [told] at verdict
      simp only [IStream.feedAll, verdict, result]
      rfl
  | cons next rest ih =>
    have hlisten : listen Receiver.hears con.receiver
        (IStream.feedAll con.stream chunk (next :: rest)).calls = listen Receiver.hears (con.told chunk)
          (IStream.feedAll (IStream.feed chunk con.stream).is next rest).calls :=
      listen_append ..
    intro run
    rw [feedEach, hlisten]
    generalize con.feed chunk = answer at hanswered
    cases hanswered with
    | raised verdict =>
      rw [Receiver.listen_verdict, verdict]
      rfl
    | rejected verdict result =>
      have hlater := feedAll_of_invalid (hfed.latched result) next rest
      have hresult : run.result = .error .invalidMsg := hlater.1
      rw [hlater.2, hresult, hfed.error_eq result]
      change _ = dominated (con.told chunk).verdict _
      rw [verdict]
      rfl
    | wentOn verdict result =>
      exact ih rfl (hfed.feed chunk) _ next (feed_answered rfl next)

/-- A chunk that is rejected latches the verdict. -/
theorem feedEach_latched (hopen : con.latched = none) (status : Status) (chunks : List (List UInt8))
    (herror : (con.feedEach (.ok status) chunks).2 = .error e) :
    (con.feedEach (.ok status) chunks).1.latched = some e := by
  induction chunks generalizing con status with
  | nil => cases herror
  | cons chunk rest ih =>
    have hanswered := feed_answered hopen chunk
    revert herror
    rw [feedEach]
    generalize con.feed chunk = answer at hanswered
    intro herror
    cases hanswered with
    | raised verdict => exact congrArg some (Except.error.inj herror)
    | rejected verdict result => exact congrArg some (Except.error.inj herror)
    | wentOn verdict result => exact ih rfl _ herror

/-- What any chunks are answered from the start. -/
theorem new_answer (c : Ceilings) (chunks : List (List UInt8)) :
    ((new c).feedEach (.ok .complete) chunks).2 =
      dominated (c.raised [] (decode chunks.flatten).calls) (decode chunks.flatten).result := by
  cases chunks with
  | nil =>
    have hnil : (decode []).calls = [] ∧ (decode []).result = .ok .complete := by
      rw [decode_calls, decode_result, readMessage, readFields_nil]
      exact ⟨rfl, rfl⟩
    rw [List.flatten_nil, hnil.1, hnil.2]
    rfl
  | cons chunk rest =>
    have halike : (Receiver.new c).Alike (Receiver.new c) := ⟨rfl, rfl, rfl⟩
    have hverdict := (Receiver.seamless.fed halike chunk rest).verdict
    rw [feedEach_answer rfl Fed.new]
    obtain ⟨hresult, -⟩ := feedAll_new_reads chunk rest
    have hstream : (IStream.feedAll (new c).stream chunk rest).result =
        (decode (chunk :: rest).flatten).result := hresult.trans (decode_result _).symm
    rw [hstream]
    refine congrArg (dominated · _) ?_
    exact hverdict.trans ((Receiver.new c).listen_verdict _)

end Consumer

/-- However the bytes are cut into chunks, a consumer answers the first breach of its ceilings
among the callbacks of one-shot decoding, or, with none broken, what one-shot decoding reports. A
rejection is answered again to every later chunk, which is not looked at. -/
theorem consumer_exact (c : Ceilings) (chunks : List (List UInt8)) :
    let answered := (Consumer.new c).feedEach (.ok .complete) chunks
    answered.2 = dominated (c.raised [] (decode chunks.flatten).calls)
        (decode chunks.flatten).result ∧
      ∀ e, answered.2 = .error e → ∀ chunk, answered.1.feed chunk = (answered.1, .error e) := by
  refine ⟨Consumer.new_answer c chunks, fun e herror chunk => ?_⟩
  exact Consumer.feed_latched (Consumer.feedEach_latched rfl .complete chunks herror) chunk

/-- One field whose cap is broken, its header torn, and fed once more. -/
example : let c : Ceilings := ⟨[], 1, some 2, none, none, none⟩
    let answered := (Consumer.new c).feedEach (.ok .complete) [[0x0a], [0x1a]]
    answered.2 = .error .limitExceeded ∧ answered.1.consumed = 2 := by
  decide +kernel

/-! ## At the word -/

/-- A field that declares a size ahead of what it holds. -/
inductive Declaring
  | payload (isBlob : Bool)
  | array (kind : ArrayKind)
  deriving DecidableEq

namespace Declaring

/-- The bytes up to the last one that says what is declared, at their shortest. -/
def bytes (id : Id) (size : ℕ) : Declaring → List UInt8
  | payload isBlob => headerBytes id 2 ++
      Leb128.encode (size * 8 + (if isBlob then FixlenType.blob else .str).tag.toNat)
  | array .unsigned => headerBytes id 3 ++ Leb128.encode size
  | array .signed => headerBytes id 4 ++ Leb128.encode size
  | array .fp32 => headerBytes id 5 ++ (Leb128.encode size ++ Leb128.encode 32)
  | array .fp64 => headerBytes id 5 ++ (Leb128.encode size ++ Leb128.encode 65)

/-- The callback that announces the field. -/
def announced (id : Id) (size : ℕ) : Declaring → Callback
  | payload isBlob => .fixlenBegin id (if isBlob then .blob else .str) size
  | array kind => .arrayBegin id kind size

/-- The cap of the receiver for such a field. -/
def cap (c : Ceilings) : Declaring → Option ℕ
  | payload false => c.maxDynStringLen
  | payload true => c.maxDynBlobLen
  | array _ => c.maxDynArrayCount

/-- What is left of the field behind its announcement. -/
def body (id : Id) (size : ℕ) : Declaring → Resume
  | payload isBlob => .payload id isBlob size size
  | array kind => arrayBody id size kind

/-- At this depth the bytes are read as the header of the field and the words that declare its size,
however these are spelled, and end there. -/
def DeclaredBy (depth : ℕ) (id : Id) (size : ℕ) (field : Declaring) (bytes : List UInt8) : Prop :=
  Makes (readHead depth) bytes [field.announced id size] (depth, field.body id size) []

variable {id : Id} {size : ℕ}

/-- The shortest bytes declare the size. -/
theorem makes (depth : ℕ) (field : Declaring) (hid : id.toNat ≤ idMax) (hsize : size ≤ fixlenMax) :
    field.DeclaredBy depth id size (field.bytes id size) := by
  have hmax : fixlenMax = 2147483647 := rfl
  have hword (value : ℕ) (hvalue : value < 2 ^ 64) : Makes word (Leb128.encode value) [] value [] := by
    have hall := makes_word hvalue []
    rwa [List.append_nil] at hall
  have hannounce (call : Callback) (body : Resume) : Makes (announce depth call body) [] [call]
      (depth, body) [] := makes_announce depth call body []
  cases field with
  | payload isBlob =>
    have hdata : (List.replicate size (0 : UInt8)).length = size := List.length_replicate
    have hhead (subtype : FixlenType) (hsized : Sized (List.replicate size 0) subtype) :=
      makes_fixlenHead depth id (hdata.trans_le hsize) hsized []
    rw [hdata] at hhead
    simp only [List.append_nil] at hhead
    cases isBlob with
    | false => exact makes_readHead 2 hid (by decide) (hhead .str trivial)
    | true => exact makes_readHead 2 hid (by decide) (hhead .blob trivial)
  | array kind =>
    cases kind with
    | unsigned =>
      exact makes_readHead 3 hid (by decide) (.next (hword size (by omega))
        (.demand hsize (hannounce _ _)))
    | signed =>
      exact makes_readHead 4 hid (by decide) (.next (hword size (by omega))
        (.demand hsize (hannounce _ _)))
    | fp32 =>
      exact makes_readHead 5 hid (by decide) (.next (makes_word (by omega) _)
        (.demand hsize (.next (hword 32 (by decide)) (hannounce _ _))))
    | fp64 =>
      exact makes_readHead 5 hid (by decide) (.next (makes_word (by omega) _)
        (.demand hsize (.next (hword 65 (by decide)) (hannounce _ _))))

/-- Behind the word there is nothing to read, so only a field of no size is whole. -/
theorem readBody_nil (field : Declaring) (c : Ceilings) (stack : List Id) :
    (size = 0 ∧ ∃ notes, readBody (field.body id size) [] = ⟨notes, .done () []⟩ ∧
        c.raised stack (calls notes) = none) ∨
      0 < size ∧ readBody (field.body id size) [] = ⟨[], .short []⟩ := by
  rcases Nat.eq_zero_or_pos size with rfl | hpos
  · refine .inl ⟨rfl, ?_⟩
    cases field with
    | payload isBlob => cases isBlob <;> exact ⟨_, rfl, rfl⟩
    | array kind => cases kind <;> exact ⟨[], rfl, rfl⟩
  · refine .inr ⟨hpos, ?_⟩
    obtain ⟨n, rfl⟩ := Nat.exists_eq_succ_of_ne_zero hpos.ne'
    cases field with
    | payload isBlob => cases isBlob <;> rfl
    | array kind => cases kind <;> rfl

/-- All there is to read of the field is its announcement. -/
theorem DeclaredBy.reads {depth : ℕ} {field : Declaring} {bytes : List UInt8}
    (h : field.DeclaredBy depth id size bytes) (c : Ceilings) (stack : List Id) :
    verdict (readFields depth bytes) =
        .ok (if size = 0 ∧ depth = 0 then .complete else .incomplete) ∧
      c.raised stack (calls (readFields depth bytes).notes) =
        c.answer stack (field.announced id size) := by
  obtain ⟨notes, hhead, hannounced⟩ := h
  have hne : bytes ≠ [] := fun hnil => by
    rw [hnil] at hhead
    cases hhead
  rcases @readBody_nil id size field c (inside stack (field.announced id size)) with
    ⟨hzero, notes', hbody, hquiet⟩ | ⟨hpos, hbody⟩
  · have hread : readField depth bytes = ⟨notes ++ notes', .done depth []⟩ := by
      rw [readField, bind_of_done hhead]
      simp only
      rw [bind_of_done hbody, pure_apply]
      simp [Report.after]
    rw [readFields, exhaust_of_done hread, exhaust_nil, Report.after_notes, calls_append, calls_append,
      hannounced]
    refine ⟨?_, ?_⟩
    · simp [verdict, Report.after, hzero]
    · simp [Ceilings.raised, hquiet]
  · have hread : readField depth bytes = ⟨notes, .short []⟩ := by
      rw [readField, bind_of_done hhead]
      simp only
      rw [bind_of_short hbody]
      simp [Report.after]
    rw [readFields, exhaust_of_short hne hread, hannounced]
    refine ⟨?_, ?_⟩
    · simp [verdict, hpos.ne']
    · simp [Ceilings.raised]

/-- What the announcement is answered. -/
theorem answer_announced (field : Declaring) (c : Ceilings) (stack : List Id) :
    c.answer stack (field.announced id size) =
      if stack = c.frames ∧ id = c.fieldId then c.breach (field.cap c) size else none := by
  cases field with
  | payload isBlob => cases isBlob <;> rfl
  | array kind => rfl

end Declaring

/-- The sequences that are open behind callbacks. -/
def insideAll (stack : List Id) (cs : List Callback) : List Id := cs.foldl inside stack

/-- Callbacks are judged one after the other. -/
theorem raised_append (c : Ceilings) (stack : List Id) (cs cs' : List Callback) :
    c.raised stack (cs ++ cs') = (c.raised stack cs).or (c.raised (insideAll stack cs) cs') := by
  induction cs generalizing stack with
  | nil => rfl
  | cons made cs ih =>
    have hrest := ih (inside stack made)
    rw [List.cons_append, Ceilings.raised, hrest, ← Option.or_assoc]
    rfl

/-- Behind any whole fields a field that declares its size at the end of the bytes is judged there,
for the sequences that it is really nested in, unless a ceiling was broken before, and the bytes are
otherwise only too few. Where `feedAll` does not panic it answers the same. -/
theorem ceiling_at_the_word (c : Ceilings) {before word : List UInt8} {depth : ℕ} {id : Id}
    {size : ℕ} {field : Declaring} (hbefore : (readMessage before).outcome = .done depth [])
    (hword : field.DeclaredBy depth id size word) {chunks : List (List UInt8)}
    (hchunks : chunks.flatten = before ++ word) :
    let answer := dominated
      ((c.raised [] (decode before).calls).or
        (if insideAll [] (decode before).calls = c.frames ∧ id = c.fieldId
          then c.breach (field.cap c) size else none))
      (.ok (if size = 0 ∧ depth = 0 then .complete else .incomplete))
    ((Consumer.new c).feedEach (.ok .complete) chunks).2 = answer ∧
      ∀ whole, ((Consumer.new c).feedAll (.ok .complete) chunks).2 = some whole →
        whole = answer := by
  intro answer
  have hread : readMessage (before ++ word) =
      (readFields depth word).after (readMessage before).notes :=
    exhaust_append local_readField hbefore word
  obtain ⟨hverdict, hraised⟩ := hword.reads c (insideAll [] (decode before).calls)
  have hcalls : (decode (before ++ word)).calls =
      (decode before).calls ++ calls (readFields depth word).notes := by
    rw [decode_calls, hread, Report.after_notes, calls_append, decode_calls]
  have hresult : (decode (before ++ word)).result = verdict (readFields depth word) := by
    rw [decode_result, hread]
    exact verdict_congr rfl
  have heach : ((Consumer.new c).feedEach (.ok .complete) chunks).2 = answer := by
    rw [Consumer.new_answer, hchunks, hcalls, hresult, hverdict, raised_append, hraised,
      field.answer_announced]
  exact ⟨heach, fun whole hwhole => (Consumer.feedAll_of_some _ _ _ hwhole).symm.trans heach⟩

/-- Behind a field, a string of 100 bytes declared inside a sequence, by a header of two bytes where
one would do, torn in its length; and an array of three floats at its shortest, where two are
allowed. -/
theorem ceiling_at_the_word_nested :
    ((Consumer.new ⟨[3], 0, some 64, none, none, none⟩).feedEach (.ok .complete)
      [[0x08, 0x05, 0x1e, 0x82], [0x00, 0xa2], [0x06]]).2 = .error .limitExceeded ∧
    ((Consumer.new ⟨[], 1, none, none, some 2, none⟩).feedEach (.ok .complete)
      [[0x0d, 0x03], [0x20]]).2 = .error .limitExceeded := by
  have hbefore : (readMessage [0x08, 0x05, 0x1e]).outcome = .done 1 [] := by decide +kernel
  have hcalls : (decode [0x08, 0x05, 0x1e]).calls = [.unsigned 1 5, .sequenceBegin 3] := by
    decide +kernel
  have hword : (Declaring.payload false).DeclaredBy 1 0 100 [0x82, 0x00, 0xa2, 0x06] :=
    ⟨_, rfl, rfl⟩
  have hanswer := (@ceiling_at_the_word ⟨[3], 0, some 64, none, none, none⟩ [0x08, 0x05, 0x1e]
    [0x82, 0x00, 0xa2, 0x06] 1 0 100 (.payload false) hbefore hword
    [[0x08, 0x05, 0x1e, 0x82], [0x00, 0xa2], [0x06]] rfl).1
  rw [hcalls] at hanswer
  have harray : (Declaring.array .fp32).DeclaredBy 0 1 3 _ :=
    Declaring.makes 0 (.array .fp32) (by decide) (by decide)
  have hnone : (decode []).calls = [] := by decide +kernel
  have hcounted := (@ceiling_at_the_word ⟨[], 1, none, none, some 2, none⟩ [] _ 0 1 3
    (.array .fp32) (by decide +kernel) harray [[0x0d, 0x03], [0x20]] (by decide +kernel)).1
  rw [hnone] at hcounted
  exact ⟨hanswer, hcounted⟩

end Sofab
