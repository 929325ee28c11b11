import Sofab.StoreLog
import Sofab.Pushing

/-!
# Every store falls between its bounds

From a sound stream the encoder that writes down its stores does what the encoder does, and every
store it writes down falls between the first index it may touch and the end of the buffer.
-/

namespace Sofab

open Steps Step Splice OStream LogM

variable {α β : Type}

/-! ## Logged steps and their originals -/

/-- A stream from which a call may store. -/
structure Ready (s : Logging) : Prop where
  sound : Sound s.stream
  floor : s.floor ≤ s.stream.offset

/-- A logged step ended like its original, and all that it logged falls between the bounds. -/
structure Copied (s : Logging) (logged : Logging × Exit Error α)
    (original : OStream × Exit Error α) : Prop where
  stream : logged.1.stream = original.1
  exit : logged.2 = original.2
  inBounds : ∃ more, logged.1.log = s.log ++ more ∧ ∀ r ∈ more, r.InBounds

/-- Such a step that may be followed by another one if it came through. -/
structure Mirrored (s : Logging) (logged : Logging × Exit Error α)
    (original : OStream × Exit Error α) : Prop extends Copied s logged original where
  ready : ∀ a, original.2 = .ok a → Ready logged.1

/-- A logged step does what its original does. -/
def Mirrors (logged : LogM α) (original : EncodeM α) : Prop :=
  ∀ s, Ready s → Mirrored s (logged s) (original s.stream)

section Rules

variable {s s' : Logging} {logged : LogM α} {original : EncodeM α}

/-- A step that leaves stream and log as they are. -/
theorem mirrored_refl (hs : Ready s) (exit : Exit Error α) :
    Mirrored s (s, exit) (s.stream, exit) where
  stream := rfl
  exit := rfl
  inBounds := ⟨[], (List.append_nil _).symm, by simp⟩
  ready _ _ := hs

/-- What is logged later goes behind what was logged before. -/
theorem Copied.behind {result : Logging × Exit Error β} {plain : OStream × Exit Error β}
    (h : Copied s' result plain) {more : List StoreRecord} (hlog : s'.log = s.log ++ more)
    (hmore : ∀ r ∈ more, r.InBounds) : Copied s result plain where
  stream := h.stream
  exit := h.exit
  inBounds := by
    obtain ⟨later, hlater, hin⟩ := h.inBounds
    refine ⟨more ++ later, by rw [hlater, hlog, List.append_assoc], fun r hr => ?_⟩
    exact (List.mem_append.mp hr).elim (hmore r) (hin r)

/-- What is mirrored behind stores within bounds is mirrored with them. -/
theorem Mirrored.behind {result : Logging × Exit Error β} {plain : OStream × Exit Error β}
    (h : Mirrored s' result plain) {more : List StoreRecord} (hlog : s'.log = s.log ++ more)
    (hmore : ∀ r ∈ more, r.InBounds) : Mirrored s result plain :=
  ⟨h.toCopied.behind hlog hmore, h.ready⟩

/-- Returning a value stores nothing on either side. -/
theorem mirrors_pure (a : α) : Mirrors (pure a) (pure a) := fun _ hs => mirrored_refl hs _

/-- Failing stores nothing on either side. -/
theorem mirrors_fail (e : Error) : Mirrors (fail e : LogM α) (fail e) := fun _ hs =>
  mirrored_refl hs _

/-- Reporting a result stores nothing on either side. -/
theorem mirrors_ofExcept (result : Except Error α) :
    Mirrors (ofExcept result) (ofExcept result) := by
  cases result with
  | ok a => exact fun _ hs => mirrored_refl hs _
  | error e => exact mirrors_fail e

/-- A step that looks at the stream. -/
theorem mirrors_self_bind {next : Logging → LogM α} {next' : OStream → EncodeM α}
    (h : ∀ s, Ready s → Mirrored s (next s s) (next' s.stream s.stream)) :
    Mirrors (self >>= next) (self >>= next') := h

/-- Steps in a row are mirrored if the second one is from where the first one leaves off. -/
theorem Mirrored.bind {next : α → LogM β} {next' : α → EncodeM β}
    (h : Mirrored s (logged s) (original s.stream))
    (hnext : ∀ a s', Ready s' → original s.stream = (s'.stream, .ok a) →
      Mirrored s' (next a s') (next' a s'.stream)) :
    Mirrored s ((logged >>= next) s) ((original >>= next') s.stream) := by
  rcases hlogged : logged s with ⟨s', exit⟩
  rcases horiginal : original s.stream with ⟨os, exit'⟩
  rw [hlogged, horiginal] at h
  obtain rfl : s'.stream = os := h.stream
  obtain rfl : exit = exit' := h.exit
  obtain ⟨more, hlog, hmore⟩ := h.inBounds
  cases exit with
  | ok a =>
    rw [bind_ok hlogged, bind_ok horiginal]
    exact (hnext a s' (h.ready a rfl) horiginal).behind hlog hmore
  | err e =>
    rw [bind_err hlogged, bind_err horiginal]
    exact ⟨⟨rfl, rfl, more, hlog, hmore⟩, fun _ hok => by cases hok⟩
  | unwound =>
    rw [bind_unwound hlogged, bind_unwound horiginal]
    exact ⟨⟨rfl, rfl, more, hlog, hmore⟩, fun _ hok => by cases hok⟩

/-- Mirrored steps compose. -/
theorem Mirrors.bind {next : α → LogM β} {next' : α → EncodeM β} (h : Mirrors logged original)
    (hnext : ∀ a, Mirrors (next a) (next' a)) : Mirrors (logged >>= next) (original >>= next') :=
  fun s hs => (h s hs).bind fun a s' hs' _ => hnext a s' hs'

/-- A change of the framing. -/
theorem mirrors_reframe (depth : OStream → ℕ) (pending : OStream → PendingRun) :
    Mirrors (quiet (update fun os => { os with pending := pending os, depth := depth os }))
      (update fun os => { os with pending := pending os, depth := depth os }) := fun s hs =>
  ⟨⟨rfl, rfl, [], (List.append_nil _).symm, by simp⟩, fun _ _ =>
    ⟨⟨hs.sound.end_eq, hs.sound.kept, hs.sound.handed, hs.sound.capacity, hs.sound.dead,
      hs.sound.answered⟩, hs.floor⟩⟩

end Rules

/-! ## Room and blocks -/

/-- Making room. Behind a handover the first index is where the new buffer starts. -/
theorem makeRoom_mirrors : Mirrors Logged.makeRoom OStream.makeRoom := by
  intro s hs
  have hdrained := makeRoom_drained hs.sound
  rw [Logged.makeRoom, OStream.makeRoom] at *
  split
  · next hfull =>
    rw [if_pos hfull] at hdrained
    rcases hdrain : OStream.drainFull s.stream with ⟨os, u | e | _⟩ <;> rw [hdrain] at hdrained
    · rw [Logged.drainFull, bind_ok (quiet_eq hdrain)]
      refine ⟨⟨rfl, rfl, [], (List.append_nil _).symm, by simp⟩, fun _ _ => ⟨?_, Nat.le_refl _⟩⟩
      cases hdrained with
      | ok reached dead room same => exact reached.sound
    · rw [Logged.drainFull, bind_err (quiet_eq hdrain)]
      exact ⟨⟨rfl, rfl, [], (List.append_nil _).symm, by simp⟩, fun _ hok => by cases hok⟩
    · rw [Logged.drainFull, bind_unwound (quiet_eq hdrain)]
      exact ⟨⟨rfl, rfl, [], (List.append_nil _).symm, by simp⟩, fun _ hok => by cases hok⟩
  · exact mirrored_refl hs _

/-- The stream past stores made from the start of the call on. -/
def Logging.storing (s : Logging) (stores : List (Store UInt8)) : Logging :=
  { s with
    stream := { s.stream with buffer := storeAll s.stream.buffer stores }
    log := s.log ++ stores.map (entry s) }

/-- A single store is the only one made and logged. -/
theorem store_eq (pos : ℕ) (run : List UInt8) (s : Logging) :
    store pos run s = (s.storing [⟨pos, run⟩], .ok ()) := rfl

/-- Stores follow one another. -/
theorem storing_storing (s : Logging) (stores more : List (Store UInt8)) :
    (s.storing stores).storing more = s.storing (stores ++ more) := by
  have hentry : entry (s.storing stores) = entry s := by
    funext store
    simp [entry, Logging.storing, storeAll_length]
  rw [Logging.storing, hentry]
  simp [Logging.storing, storeAll_append]

/-- The wide kernel logs its stores. -/
theorem writeVarintUnchecked_logged (dst : ℕ) (value : Unsigned) (s : Logging) :
    Logged.writeVarintUnchecked dst value s =
      (s.storing (varintStores dst value), .ok (varintBytes value).length) := by
  have hlen := congrArg Prod.snd (writeVarintUnchecked_eq s.stream.buffer dst value)
  rw [writeVarintUnchecked] at hlen
  rw [Logged.writeVarintUnchecked, varintStores]
  simp only at hlen ⊢
  split
  · next hnarrow =>
    rw [if_pos hnarrow] at hlen
    rw [← hlen]
    rfl
  · next hwide =>
    rw [if_neg hwide] at hlen
    split
    · next hnine =>
      rw [if_pos hnine] at hlen
      rw [← hlen, bind_ok (store_eq _ _ _), bind_ok (store_eq _ _ _), storing_storing]
      rfl
    · next hten =>
      rw [if_neg hten] at hlen
      rw [← hlen, bind_ok (store_eq _ _ _), bind_ok (store_eq _ _ _), bind_ok (store_eq _ _ _),
        storing_storing, storing_storing]
      rfl

/-- The narrow kernel logs its stores. -/
theorem writeVarintUncheckedNarrow_logged (dst : ℕ) (value : Unsigned) (s : Logging) :
    Logged.writeVarintUncheckedNarrow dst value s =
      (s.storing (narrowStores dst value), .ok (varintBytes value).length) := by
  have hlen := congrArg Prod.snd (writeVarintUncheckedNarrow_eq s.stream.buffer dst value)
  rw [writeVarintUncheckedNarrow] at hlen
  rw [Logged.writeVarintUncheckedNarrow, narrowStores]
  split
  · next hsmall =>
    rw [if_pos hsmall] at hlen
    simp only at hlen
    rw [← hlen, bind_ok (store_eq _ _ _)]
    rfl
  · exact writeVarintUnchecked_logged dst value s

/-- The stream past a block stored at the cursor. -/
def Logging.perform (s : Logging) (block : List Part) : Logging :=
  let stored := s.storing (blockStores s.stream.offset block)
  { stored with stream := { stored.stream with
    offset := s.stream.offset + (blockBytes block).length } }

/-- A block in the room left is stored between the bounds. -/
theorem mirrored_perform {s : Logging} (hs : Ready s) (block : List Part)
    (hroom : s.stream.offset + blockReserve block ≤ s.stream.end_) :
    Mirrored s (s.perform block, (.ok () : Exit Error Unit)) (s.stream.perform block, .ok ()) where
  stream := rfl
  exit := rfl
  inBounds := by
    refine ⟨_, rfl, fun r hr => ?_⟩
    obtain ⟨store, hstore, rfl⟩ := List.mem_map.mp hr
    exact ⟨(blockStores_within _ block store hstore).mono hs.floor hroom, hs.sound.end_eq.le⟩
  ready _ _ :=
    ⟨(reached_perform hs.sound block hroom).sound, hs.floor.trans (Nat.le_add_right _ _)⟩

/-- Bytes put at the cursor are logged as one store. -/
theorem put_logged (data : List UInt8) (s : Logging) :
    Logged.put data s = (s.perform [.raw data], .ok ()) := by
  have hbytes : blockBytes [.raw data] = data := by
    rw [blockBytes, List.flatMap_singleton]
    rfl
  rw [Logged.put, self_bind, bind_ok (store_eq _ _ _), Logging.perform, hbytes]
  rfl

/-- Bytes that fit at the cursor. -/
theorem mirrored_put {s : Logging} (hs : Ready s) {data : List UInt8}
    (hfit : s.stream.offset + data.length ≤ s.stream.end_) :
    Mirrored s (Logged.put data s) (s.stream.put data, .ok ()) := by
  rw [put_logged, ← perform_raw]
  exact mirrored_perform hs [.raw data] hfit

/-- Pushing a byte stores it alone, where room was made. -/
theorem pushByte_mirrors (b : UInt8) : Mirrors (Logged.pushByte b) (OStream.pushByte b) := by
  intro s hs
  refine (makeRoom_mirrors s hs).bind fun u s' hs' hroom => ?_
  have hgap := makeRoom_room hroom
  exact mirrored_put hs' hgap

/-! ## Payloads -/

/-- One run of a split payload, and the rest of it. -/
def Logged.pushRun (data : List UInt8) : LogM Unit := fun s =>
  let n := min (s.stream.end_ - s.stream.offset) data.length
  if s.stream.offset + n ≤ s.stream.buffer.length then
    Logged.pushRawSplit (data.drop n) (Logged.put (data.take n) s).1
  else
    (s, .unwound)

/-- A payload that is not empty makes room for its first run. -/
theorem pushRawSplit_logged {data : List UInt8} (hne : data ≠ []) :
    Logged.pushRawSplit data = Logged.makeRoom >>= fun _ => Logged.pushRun data := by
  funext s
  rcases hroom : Logged.makeRoom s with ⟨s₁, u | e | _⟩
  · rw [bind_ok hroom, Logged.pushRawSplit, if_neg hne, Logged.pushRun]
    split <;> simp_all
  · rw [bind_err hroom, Logged.pushRawSplit, if_neg hne]
    split <;> simp_all
  · rw [bind_unwound hroom, Logged.pushRawSplit, if_neg hne]
    split <;> simp_all

/-- The runs of a payload that is split fall within the bounds. -/
theorem pushRawSplit_mirrors (data : List UInt8) :
    Mirrors (Logged.pushRawSplit data) (OStream.pushRawSplit data) := by
  induction hlen : data.length using Nat.strongRecOn generalizing data with
  | _ len ih =>
    subst hlen
    by_cases hnil : data = []
    · intro s hs
      rw [Logged.pushRawSplit, OStream.pushRawSplit, if_pos hnil, if_pos hnil]
      exact mirrored_refl hs _
    · rw [pushRawSplit_logged hnil, pushRawSplit_of_ne hnil]
      intro s hs
      refine (makeRoom_mirrors s hs).bind fun u s₁ hs₁ hroom => ?_
      have hgap := makeRoom_room hroom
      have hpos : 0 < data.length := List.length_pos_iff.mpr hnil
      rw [Logged.pushRun, pushRun]
      generalize hn : min (s₁.stream.end_ - s₁.stream.offset) data.length = n
      have htake : (data.take n).length = n := by
        rw [List.length_take]
        omega
      have hfit : s₁.stream.offset + (data.take n).length ≤ s₁.stream.end_ := by omega
      have hput := mirrored_put hs₁ hfit
      split
      · have hshorter : (data.drop n).length < data.length := by
          rw [List.length_drop]
          omega
        have hrest := ih _ hshorter _ rfl (Logged.put (data.take n) s₁).1 (hput.ready () rfl)
        obtain ⟨more, hlog, hmore⟩ := hput.inBounds
        rw [hput.stream] at hrest
        exact hrest.behind hlog hmore
      · exact mirrored_refl hs₁ _

/-- A payload stays within the bounds by either path. -/
theorem pushRaw_mirrors (data : List UInt8) :
    Mirrors (Logged.pushRaw data) (OStream.pushRaw data) := by
  intro s hs
  rw [Logged.pushRaw, OStream.pushRaw]
  split
  · next hfit => exact mirrored_put hs hfit
  · exact pushRawSplit_mirrors data s hs

/-! ## Varints -/

/-- A varint pushed byte by byte is stored within the bounds. -/
theorem writeVarintSplit_mirrors (value : Unsigned) :
    Mirrors (Logged.writeVarintSplit value) (OStream.writeVarintSplit value) := by
  induction hv : value.toNat using Nat.strongRecOn generalizing value with
  | _ v ih =>
    subst hv
    rw [Logged.writeVarintSplit, OStream.writeVarintSplit]
    split
    · next hmore =>
      have hshift := shiftRight_seven value
      have hne : (value >>> 7).toNat ≠ 0 := fun hzero => hmore (UInt64.toNat_inj.mp hzero)
      exact (pushByte_mirrors _).bind fun _ => ih _ (by omega) _ rfl
    · exact pushByte_mirrors _

/-- Two varints pushed byte by byte are stored within the bounds. -/
theorem writeVarintSplits_mirrors (first second : Unsigned) :
    Mirrors (Logged.writeVarintSplit first >>= fun _ => Logged.writeVarintSplit second)
      (OStream.writeVarintSplit first >>= fun _ => OStream.writeVarintSplit second) :=
  (writeVarintSplit_mirrors first).bind fun _ => writeVarintSplit_mirrors second

/-- A varint stays within the bounds by either path, the kernel with its ten bytes too. -/
theorem writeVarint_mirrors (value : Unsigned) :
    Mirrors (Logged.writeVarint value) (OStream.writeVarint value) := by
  intro s hs
  by_cases hroom : s.stream.offset + maxVarintLen ≤ s.stream.end_
  · have hlogged : Logged.writeVarint value s = (s.perform [.narrow value], .ok ()) := by
      rw [Logged.writeVarint, if_pos hroom, bind_ok (writeVarintUncheckedNarrow_logged _ _ _)]
      simp [Logging.perform, blockStores, blockBytes, Part.stores, Part.bytes, seek, update]
    rw [hlogged, writeVarint_room value hroom]
    exact mirrored_perform hs [.narrow value] hroom
  · rw [Logged.writeVarint, OStream.writeVarint, if_neg hroom, if_neg hroom]
    exact writeVarintSplit_mirrors value s hs

/-- A header and its value stay within the bounds by either path. -/
theorem writeHeaderValue_mirrors (header value : Unsigned) :
    Mirrors (Logged.writeHeaderValue header value) (OStream.writeHeaderValue header value) := by
  intro s hs
  by_cases hroom : s.stream.offset + 2 * maxVarintLen ≤ s.stream.end_
  · have hlogged : Logged.writeHeaderValue header value s =
        (s.perform [.narrow header, .wide value], .ok ()) := by
      rw [Logged.writeHeaderValue, if_pos hroom, bind_ok (writeVarintUncheckedNarrow_logged _ _ _),
        bind_ok (writeVarintUnchecked_logged _ _ _), storing_storing]
      simp [Logging.perform, blockStores, blockBytes, Part.stores, Part.bytes, seek, update,
        Nat.add_assoc]
    rw [hlogged, writeHeaderValue_room header value hroom]
    exact mirrored_perform hs [.narrow header, .wide value] hroom
  · rw [Logged.writeHeaderValue, OStream.writeHeaderValue, if_neg hroom, if_neg hroom]
    exact writeVarintSplits_mirrors header value s hs

/-- A header and its word stay within the bounds by either path. -/
theorem writeHeaderWord_mirrors (header word : Unsigned) :
    Mirrors (Logged.writeHeaderWord header word) (OStream.writeHeaderWord header word) := by
  intro s hs
  by_cases hroom : 2 * maxVarintLen ≤ s.stream.end_ - s.stream.offset
  · have hlogged : Logged.writeHeaderWord header word s =
        (s.perform [.narrow header, .narrow word], .ok ()) := by
      rw [Logged.writeHeaderWord, if_pos hroom, bind_ok (writeVarintUncheckedNarrow_logged _ _ _),
        bind_ok (writeVarintUncheckedNarrow_logged _ _ _), storing_storing]
      simp [Logging.perform, blockStores, blockBytes, Part.stores, Part.bytes, seek, update,
        Nat.add_assoc]
    rw [hlogged, writeHeaderWord_room header word hroom]
    exact mirrored_perform hs [.narrow header, .narrow word] (hs.sound.fits hroom)
  · rw [Logged.writeHeaderWord, OStream.writeHeaderWord, if_neg hroom, if_neg hroom]
    exact writeVarintSplits_mirrors header word s hs

/-- A header, its word and a payload stay within the bounds one after the other. -/
theorem writeFixlenSplit_mirrors (header word : Unsigned) (data : List UInt8) :
    Mirrors (Logged.writeFixlenSplit header word data)
      (OStream.writeFixlenSplit header word data) :=
  (writeHeaderWord_mirrors header word).bind fun _ => pushRaw_mirrors data

/-- A header, its word and a payload stay within the bounds as a block. -/
theorem writeHeaderWordData_mirrors (header word : Unsigned) (data : List UInt8) :
    Mirrors (Logged.writeHeaderWordData header word data)
      (OStream.writeHeaderWordData header word data) := by
  intro s hs
  by_cases hroom : 2 * maxVarintLen + data.length ≤ s.stream.end_ - s.stream.offset
  · have hlogged : Logged.writeHeaderWordData header word data s =
        (s.perform [.narrow header, .narrow word, .raw data], .ok ()) := by
      rw [Logged.writeHeaderWordData, if_pos hroom,
        bind_ok (writeVarintUncheckedNarrow_logged _ _ _),
        bind_ok (writeVarintUncheckedNarrow_logged _ _ _), bind_ok (store_eq _ _ _),
        storing_storing, storing_storing]
      simp [Logging.perform, blockStores, blockBytes, Part.stores, Part.bytes, seek, update,
        Nat.add_assoc]
    have hreserve : blockReserve [.narrow header, .narrow word, .raw data] =
        2 * maxVarintLen + data.length := by
      simp [blockReserve, Part.reserve, maxVarintLen]
      omega
    rw [hlogged, writeHeaderWordData_room header word data hroom]
    exact mirrored_perform hs _ (hreserve ▸ hs.sound.fits hroom)
  · rw [Logged.writeHeaderWordData, OStream.writeHeaderWordData, if_neg hroom, if_neg hroom]
    exact writeFixlenSplit_mirrors header word data s hs

/-! ## Runs -/

/-- A run of varints is a block. -/
theorem storeRun_logged (values : List Unsigned) (off : ℕ) (s : Logging) :
    Logged.storeRun off values s = (s.storing (blockStores off (values.map .wide)),
      .ok (off + (blockBytes (values.map .wide)).length)) := by
  induction values generalizing off s with
  | nil =>
    have hnone : s.storing [] = s := by simp [Logging.storing]
    rw [List.map_nil, blockStores, hnone]
    rfl
  | cons value values ih =>
    rw [Logged.storeRun, bind_ok (writeVarintUnchecked_logged _ _ _), ih, storing_storing,
      List.map_cons, blockStores, blockBytes_cons, List.length_append, Nat.add_assoc]
    rfl

/-- Elements that fit in the room left go out in one block. -/
theorem mirrored_run {s : Logging} (hs : Ready s) (values : List Unsigned)
    (hroom : values.length * maxVarintLen ≤ s.stream.end_ - s.stream.offset) :
    Mirrored s ((do
        let off ← Logged.storeRun s.stream.offset values
        seek off : LogM Unit) s)
      ({ s.stream with
        buffer := (OStream.storeRun s.stream.buffer s.stream.offset values).1
        offset := (OStream.storeRun s.stream.buffer s.stream.offset values).2 }, .ok ()) := by
  have hfits : s.stream.offset + blockReserve (values.map .wide) ≤ s.stream.end_ := by
    rw [blockReserve_wide]
    exact hs.sound.fits hroom
  have hblock := mirrored_perform hs (values.map .wide) hfits
  rw [bind_ok (storeRun_logged _ _ _), storeRun_eq]
  exact hblock

/-- The chunks of an integer array stay within the bounds. -/
theorem writeVarintRunChunked_mirrors (toWire : α → Unsigned) (data : List α) :
    Mirrors (Logged.writeVarintRunChunked toWire data)
      (OStream.writeVarintRunChunked toWire data) := by
  induction hlen : data.length using Nat.strongRecOn generalizing data with
  | _ len ih =>
    subst hlen
    intro s hs
    cases data with
    | nil =>
      rw [Logged.writeVarintRunChunked, OStream.writeVarintRunChunked]
      exact mirrored_refl hs _
    | cons e rest =>
      rw [Logged.writeVarintRunChunked, OStream.writeVarintRunChunked]
      simp only
      split
      · exact (writeVarintSplit_mirrors (toWire e)).bind
          (fun _ => ih rest.length (Nat.lt_succ_self _) rest rfl) s hs
      · next hroom =>
        generalize hrun : min ((s.stream.end_ - s.stream.offset) / maxVarintLen)
          (e :: rest).length = run
        have hpos : 0 < run := by
          rw [← hrun]
          exact lt_min (Nat.pos_of_ne_zero hroom) (Nat.succ_pos _)
        have hlen : (((e :: rest).take run).map toWire).length * maxVarintLen ≤
            s.stream.end_ - s.stream.offset := by
          refine (Nat.le_div_iff_mul_le (by decide)).mp ?_
          rw [List.length_map, List.length_take, ← hrun]
          exact (Nat.min_le_left _ _).trans (Nat.min_le_left _ _)
        have hblock := mirrored_run hs _ hlen
        have hshorter : ((e :: rest).drop run).length < (e :: rest).length := by
          rw [List.length_drop, List.length_cons]
          omega
        rw [bind_ok (storeRun_logged _ _ _)] at hblock ⊢
        have hrest := ih _ hshorter _ rfl _ (hblock.ready () rfl)
        obtain ⟨more, hlog, hmore⟩ := hblock.inBounds
        rw [hblock.stream] at hrest
        exact hrest.behind hlog hmore

/-- An integer array stays within the bounds by either path. -/
theorem writeVarintRun_mirrors (data : List α) (toWire : α → Unsigned) :
    Mirrors (Logged.writeVarintRun data toWire) (OStream.writeVarintRun data toWire) := by
  intro s hs
  rw [Logged.writeVarintRun, OStream.writeVarintRun]
  split
  · next hroom => exact mirrored_run hs _ (by rw [List.length_map]; exact hroom)
  · exact writeVarintRunChunked_mirrors toWire data s hs

/-- Float elements stay within the bounds, one by one or in bulk. -/
theorem writeFixlenRun_mirrors (host : Endian) (data : List α) (toLe : α → List UInt8) :
    Mirrors (Logged.writeFixlenRun host data toLe) (OStream.writeFixlenRun host data toLe) := by
  cases host with
  | little => exact pushRaw_mirrors _
  | big =>
    change Mirrors (Logged.pushEach toLe data) (OStream.pushEach toLe data)
    induction data with
    | nil => exact mirrors_pure ()
    | cons e rest ih => exact (pushRaw_mirrors _).bind fun _ => ih

/-! ## Calls -/

/-- The loop over the held-back headers. A call goes on behind it only if all of them were
written. -/
theorem commitLoop_copied (left : ℕ) {i : ℕ} {s : Logging} (hs : Ready s) :
    Copied s (Logged.commitLoop i left s) (OStream.commitLoop i left s.stream) ∧
      ∀ n, (OStream.commitLoop i left s.stream).2 = .ok (n, .ok ()) →
        Ready (Logged.commitLoop i left s).1 := by
  induction left generalizing i s with
  | zero => exact ⟨(mirrored_refl hs _).toCopied, fun _ _ => hs⟩
  | succ left ih =>
    rw [Logged.commitLoop, OStream.commitLoop, self_bind, self_bind]
    generalize (s.stream.pending.get i).toUInt64 <<< 3 ||| tSequenceStart.toUInt64 = tag
    have hheader := writeVarint_mirrors tag s hs
    rcases hlogged : Logged.writeVarint tag s with ⟨s', exit⟩
    rcases horiginal : OStream.writeVarint tag s.stream with ⟨os, exit'⟩
    rw [hlogged, horiginal] at hheader
    obtain rfl : s'.stream = os := hheader.stream
    obtain rfl : exit = exit' := hheader.exit
    obtain ⟨more, hlog, hmore⟩ := hheader.inBounds
    cases exit with
    | ok u =>
      rw [bind_ok (attempt_ok hlogged), bind_ok (attempt_ok horiginal)]
      obtain ⟨hrest, hready⟩ := @ih (i + 1) s' (hheader.ready u rfl)
      exact ⟨hrest.behind hlog hmore, hready⟩
    | err e =>
      rw [bind_ok (attempt_err hlogged), bind_ok (attempt_err horiginal)]
      exact ⟨⟨rfl, rfl, more, hlog, hmore⟩, fun _ hok => by cases hok⟩
    | unwound =>
      rw [bind_unwound (attempt_unwound hlogged), bind_unwound (attempt_unwound horiginal)]
      exact ⟨⟨rfl, rfl, more, hlog, hmore⟩, fun _ hok => by cases hok⟩

/-- Committing the held-back headers stays within the bounds. -/
theorem commitHeld_mirrors : Mirrors Logged.commitHeld OStream.commitHeld := by
  intro s hs
  rw [Logged.commitHeld, OStream.commitHeld]
  split
  · exact mirrored_refl hs _
  · rw [Logged.commitPending, OStream.commitPending, self_bind, self_bind]
    generalize s.stream.pending.len = left
    obtain ⟨hloop, hready⟩ := @commitLoop_copied left 0 s hs
    rcases hlogged : Logged.commitLoop 0 left s with ⟨s', exit⟩
    rcases horiginal : OStream.commitLoop 0 left s.stream with ⟨os, exit'⟩
    rw [hlogged, horiginal] at hloop hready
    obtain rfl : s'.stream = os := hloop.stream
    obtain rfl : exit = exit' := hloop.exit
    obtain ⟨more, hlog, hmore⟩ := hloop.inBounds
    rcases exit with ⟨written, e | u⟩ | e | _
    · rw [bind_ok hlogged, bind_ok horiginal]
      exact ⟨⟨rfl, rfl, more, hlog, hmore⟩, fun _ hok => by cases hok⟩
    · rw [bind_ok hlogged, bind_ok horiginal]
      have hdropped := mirrors_reframe OStream.depth fun os => os.pending.dropFront written
      have hrest := (hdropped.bind fun _ => mirrors_ofExcept (.ok u)) s' (hready written rfl)
      exact hrest.behind hlog hmore
    · rw [bind_err hlogged, bind_err horiginal]
      exact ⟨⟨rfl, rfl, more, hlog, hmore⟩, fun _ hok => by cases hok⟩
    · rw [bind_unwound hlogged, bind_unwound horiginal]
      exact ⟨⟨rfl, rfl, more, hlog, hmore⟩, fun _ hok => by cases hok⟩

/-- A scalar field stays within the bounds, with the headers in front of it. -/
theorem writeFieldVarint_mirrors (id : Id) (wireType : UInt8) (value : Unsigned) :
    Mirrors (Logged.writeFieldVarint id wireType value)
      (OStream.writeFieldVarint id wireType value) := by
  rw [Logged.writeFieldVarint, OStream.writeFieldVarint]
  split
  · exact mirrors_fail _
  · exact commitHeld_mirrors.bind fun _ => writeHeaderValue_mirrors _ _

/-- A fixlen field stays within the bounds, with the headers in front of it. -/
theorem writeFixlenUnchecked_mirrors (id : Id) (data : List UInt8) (subtype : FixlenType) :
    Mirrors (Logged.writeFixlenUnchecked id data subtype)
      (OStream.writeFixlenUnchecked id data subtype) := by
  rw [Logged.writeFixlenUnchecked, OStream.writeFixlenUnchecked]
  split
  · exact mirrors_fail _
  · split
    · exact mirrors_fail _
    · exact commitHeld_mirrors.bind fun _ => writeHeaderWordData_mirrors _ _ _

/-- The checks of a public fixlen write store nothing. -/
theorem writeFixlen_mirrors (id : Id) (data : List UInt8) (subtype : FixlenType) :
    Mirrors (Logged.writeFixlen id data subtype) (OStream.writeFixlen id data subtype) := by
  cases subtype <;> rw [Logged.writeFixlen, OStream.writeFixlen]
  case blob => exact writeFixlenUnchecked_mirrors id data .blob
  all_goals
    split
    · first | exact mirrors_fail _ | exact writeFixlenUnchecked_mirrors id data _
    · first | exact mirrors_fail _ | exact writeFixlenUnchecked_mirrors id data _

/-- An integer array stays within the bounds, its header and count included. -/
theorem writeArrayVarint_mirrors (id : Id) (wireType : UInt8) (data : List α)
    (toWire : α → Unsigned) :
    Mirrors (Logged.writeArrayVarint id wireType data toWire)
      (if arrayMax < data.length then fail .argument else do
        OStream.writeFieldVarint id wireType (UInt64.ofNat data.length)
        OStream.writeVarintRun data toWire : EncodeM Unit) := by
  rw [Logged.writeArrayVarint]
  split
  · exact mirrors_fail _
  · exact (writeFieldVarint_mirrors _ _ _).bind fun _ => writeVarintRun_mirrors _ _

/-- A float array stays within the bounds, its header, count and word included. -/
theorem writeArrayFloat_mirrors (host : Endian) (id : Id) (data : List α) (word : Unsigned)
    (toLe : α → List UInt8) :
    Mirrors (Logged.writeArrayFloat host id data word toLe)
      (if arrayMax < data.length then fail .argument else do
        OStream.writeFieldVarint id tFixlenArray (UInt64.ofNat data.length)
        OStream.writeVarint word
        OStream.writeFixlenRun host data toLe : EncodeM Unit) := by
  rw [Logged.writeArrayFloat]
  split
  · exact mirrors_fail _
  · refine (writeFieldVarint_mirrors _ _ _).bind fun _ => ?_
    exact (writeVarint_mirrors _).bind fun _ => writeFixlenRun_mirrors _ _ _

/-- Every field write stays within the bounds. -/
theorem writeField_mirrors (host : Endian) (f : Field) :
    Mirrors (Logged.writeField host f) (f.write host) := by
  cases f with
  | unsigned id value => exact writeFieldVarint_mirrors _ _ _
  | signed id value => exact writeFieldVarint_mirrors _ _ _
  | boolean id value => exact writeFieldVarint_mirrors _ _ _
  | fp32 id value => exact writeFixlenUnchecked_mirrors _ _ _
  | fp64 id value => exact writeFixlenUnchecked_mirrors _ _ _
  | str id text => exact writeFixlenUnchecked_mirrors _ _ _
  | blob id data => exact writeFixlenUnchecked_mirrors _ _ _
  | fixlen id data subtype => exact writeFixlen_mirrors _ _ _
  | arrayUnsigned id data => exact writeArrayVarint_mirrors _ _ _ _
  | arraySigned id data => exact writeArrayVarint_mirrors _ _ _ _
  | arrayFp32 id data => exact writeArrayFloat_mirrors _ _ _ _ _
  | arrayFp64 id data => exact writeArrayFloat_mirrors _ _ _ _ _

/-- A writer call makes all of its stores between the bounds. -/
theorem write_mirrors (host : Endian) (call : Call) :
    Mirrors (Logged.write host call) (call.write host) := by
  have hmarker : Mirrors (do
      Logged.writeVarint tSequenceEnd.toUInt64
      quiet (update fun os => { os with depth := os.depth - 1 }))
      (do
        OStream.writeSequenceEndMarker
        update fun os => { os with depth := os.depth - 1 }) :=
    (writeVarint_mirrors _).bind fun _ => mirrors_reframe (·.depth - 1) OStream.pending
  cases call with
  | field f => exact writeField_mirrors host f
  | sequenceBeginLazy id =>
    intro s hs
    change Mirrored s (quiet (writeSequenceBeginLazy id) s) (writeSequenceBeginLazy id s.stream)
    rw [quiet, OStream.writeSequenceBeginLazy, self_bind]
    split
    · exact mirrored_refl hs _
    · split
      · exact mirrored_refl hs _
      · exact mirrors_reframe (·.depth + 1) (·.pending.push id) s hs
  | sequenceEnd =>
    refine mirrors_self_bind fun s hs => ?_
    split
    · exact mirrored_refl hs _
    · rw [self_bind, self_bind]
      rcases s.stream.pending.pop with ⟨pending, popped⟩
      simp only
      split
      · exact mirrors_reframe (·.depth - 1) (fun _ => pending) s hs
      · exact hmarker s hs
  | sequenceEndKeep =>
    refine mirrors_self_bind fun s hs => ?_
    split
    · exact mirrored_refl hs _
    · exact commitHeld_mirrors.bind (fun _ => hmarker) s hs

end Sofab
