import Sofab.Filling

/-!
# The raw writers push exactly their bytes

Every path of the byte, payload, varint and run writers fills buffers with the same bytes: the
fast paths that store into reserved room and the split paths that drain in between.
-/

namespace Sofab

open Steps Step OStream Splice

/-- Pushing a byte fills it in. -/
theorem pushByte_performs (b : UInt8) : Performs [b] (pushByte b) := fun _ hsound =>
  performed_makeRoom hsound (List.cons_ne_nil b []) fun _ _ hroom => performed_put hroom

/-- Push bytes one at a time. -/
def pushBytes : List UInt8 → EncodeM Unit
  | [] => pure ()
  | b :: rest => do
    pushByte b
    pushBytes rest

/-- Pushing bytes one at a time fills them in. -/
theorem pushBytes_performs (bytes : List UInt8) : Performs bytes (pushBytes bytes) := by
  induction bytes with
  | nil => exact performs_pure
  | cons b bytes ih => exact (pushByte_performs b).bind ih

/-! ## Payloads -/

/-- One run of a split payload, and the rest of it. -/
def pushRun (data : List UInt8) : EncodeM Unit := fun os =>
  let n := min (os.end_ - os.offset) data.length
  if os.offset + n ≤ os.buffer.length then
    pushRawSplit (data.drop n) (os.put (data.take n))
  else
    (os, .unwound)

/-- A nonempty payload goes on where there is room. -/
theorem pushRawSplit_of_ne {data : List UInt8} (hne : data ≠ []) :
    pushRawSplit data = makeRoom >>= fun _ => pushRun data := by
  funext os
  rcases hroom : makeRoom os with ⟨os₁, u | e | _⟩
  · rw [bind_ok hroom, pushRawSplit, if_neg hne, pushRun]
    split <;> simp_all
  · rw [bind_err hroom, pushRawSplit, if_neg hne]
    split <;> simp_all
  · rw [bind_unwound hroom, pushRawSplit, if_neg hne]
    split <;> simp_all

/-- A payload that is split is filled in run by run. -/
theorem pushRawSplit_performs (data : List UInt8) : Performs data (pushRawSplit data) := by
  induction hlen : data.length using Nat.strongRecOn generalizing data with
  | _ len ih =>
    subst hlen
    intro os hsound
    by_cases hnil : data = []
    · subst hnil
      rw [pushRawSplit, if_pos rfl]
      exact .done os
    · rw [pushRawSplit_of_ne hnil]
      refine performed_makeRoom hsound hnil fun os₁ hsound₁ hroom => ?_
      rw [pushRun]
      generalize hn : min (os₁.end_ - os₁.offset) data.length = n
      have hpos : 0 < data.length := List.length_pos_iff.mpr hnil
      have htake : (data.take n).length = n := by
        rw [List.length_take]
        omega
      have hfit : os₁.offset + (data.take n).length ≤ os₁.end_ := by omega
      have hin : os₁.offset + n ≤ os₁.buffer.length := by
        rw [← hsound₁.end_eq, ← htake]
        exact hfit
      have hput : Performed Eq os₁ (data.take n) (os₁.put (data.take n), .ok ()) :=
        performed_put hfit
      have hsound₂ : Sound (os₁.put (data.take n)) :=
        (reached_store hsound₁ hfit (stored_overwrite _ _ (htake.symm ▸ hin))).sound
      have hrest := ih (data.drop n).length (by rw [List.length_drop]; omega) (data.drop n) rfl
        (os₁.put (data.take n)) hsound₂
      rw [if_pos hin]
      have hall := hput.append hrest
      rwa [List.take_append_drop] at hall

/-- A payload is filled in, at once where it fits. -/
theorem pushRaw_performs (data : List UInt8) : Performs data (pushRaw data) := by
  intro os hsound
  rw [pushRaw]
  split
  · next hfit => exact performed_put hfit
  · exact pushRawSplit_performs data os hsound

/-! ## Varints -/

/-- A last group is its own byte. -/
theorem lastGroup_eq {value : Unsigned} (h : value.toNat < 128) :
    value.toUInt8 &&& 0x7F = UInt8.ofNat value.toNat := by
  apply UInt8.toNat_inj.mp
  rw [UInt8.toNat_and, UInt64.toNat_toUInt8, UInt8.toNat_ofNat']
  change value.toNat % 2 ^ 8 &&& 2 ^ 7 - 1 = _
  rw [Nat.and_two_pow_sub_one_eq_mod]
  omega

/-- A group that is not the last is marked. -/
theorem markedGroup_eq (value : Unsigned) :
    (value.toUInt8 &&& 0x7F) ||| 0x80 = UInt8.ofNat (value.toNat % 128 + 128) := by
  apply UInt8.toNat_inj.mp
  have hmark : value.toNat % 2 ^ 7 ||| 2 ^ 7 = 2 ^ 7 + value.toNat % 2 ^ 7 := by
    have hor := Nat.two_pow_add_eq_or_of_lt (Nat.mod_lt value.toNat (by decide : 0 < 2 ^ 7)) 1
    rw [Nat.mul_one] at hor
    rw [Nat.lor_comm, ← hor]
  rw [UInt8.toNat_or, UInt8.toNat_and, UInt64.toNat_toUInt8, UInt8.toNat_ofNat']
  change value.toNat % 2 ^ 8 &&& 2 ^ 7 - 1 ||| 2 ^ 7 = _
  rw [Nat.and_two_pow_sub_one_eq_mod, Nat.mod_mod_of_dvd _ (by decide : 2 ^ 7 ∣ 2 ^ 8), hmark]
  omega

/-- A shift by seven bits divides by 128. -/
theorem shiftRight_seven (value : Unsigned) : (value >>> 7).toNat = value.toNat / 128 := by
  rw [UInt64.toNat_shiftRight, Nat.shiftRight_eq_div_pow]
  rfl

/-- The byte-at-a-time writer pushes the shortest string. -/
theorem writeVarintSplit_eq_pushBytes (value : Unsigned) :
    writeVarintSplit value = pushBytes (varintBytes value) := by
  induction hv : value.toNat using Nat.strongRecOn generalizing value with
  | _ v ih =>
    subst hv
    have hshift := shiftRight_seven value
    rw [writeVarintSplit, varintBytes]
    by_cases hlast : value.toNat < 128
    · have hzero : value >>> 7 = 0 :=
        UInt64.toNat_inj.mp (by rw [hshift]; exact Nat.div_eq_of_lt hlast)
      rw [if_neg (not_not.mpr hzero), Leb128.encode_of_lt hlast, ← lastGroup_eq hlast]
      exact (Step.bind_pure _).symm
    · have hmore : value >>> 7 ≠ 0 := by
        intro hzero
        have hdiv := hshift.symm.trans (congrArg UInt64.toNat hzero)
        change value.toNat / 128 = 0 at hdiv
        omega
      rw [if_pos hmore, Leb128.encode_of_le (Nat.le_of_not_lt hlast), ← markedGroup_eq, ← hshift,
        ih _ (by omega) (value >>> 7) rfl]
      rfl

/-- A varint is filled in byte by byte. -/
theorem writeVarintSplit_performs (value : Unsigned) :
    Performs (varintBytes value) (writeVarintSplit value) := by
  rw [writeVarintSplit_eq_pushBytes]
  exact pushBytes_performs _

/-- Two varints are filled in one after the other. -/
theorem writeVarintSplits_performs (first second : Unsigned) :
    Performs (varintBytes first ++ varintBytes second)
      (writeVarintSplit first >>= fun _ => writeVarintSplit second) :=
  (writeVarintSplit_performs first).bind (writeVarintSplit_performs second)

/-- With room for any varint one is stored by the kernel. -/
theorem writeVarint_room {os : OStream} (value : Unsigned)
    (hroom : os.offset + maxVarintLen ≤ os.end_) :
    writeVarint value os = (os.perform [.narrow value], .ok ()) := by
  rw [writeVarint, if_pos hroom, writeVarintUncheckedNarrow_eq]
  simp [perform, blockStores, blockBytes, Part.stores, Part.bytes]

/-- A varint is filled in by either path. -/
theorem writeVarint_performs (value : Unsigned) :
    Performs (varintBytes value) (writeVarint value) := by
  intro os hsound
  by_cases hroom : os.offset + maxVarintLen ≤ os.end_
  · have hblock := @performed_block Eq os [.narrow value] hroom
    rw [blockBytes, List.flatMap_singleton] at hblock
    rw [writeVarint_room value hroom]
    exact hblock
  · rw [writeVarint, if_neg hroom]
    exact writeVarintSplit_performs value os hsound

/-- With room for any two varints a header and its value are stored by the kernels. -/
theorem writeHeaderValue_room {os : OStream} (header value : Unsigned)
    (hroom : os.offset + 2 * maxVarintLen ≤ os.end_) :
    writeHeaderValue header value os = (os.perform [.narrow header, .wide value], .ok ()) := by
  rw [writeHeaderValue, if_pos hroom, writeVarintUncheckedNarrow_eq]
  simp [perform, blockStores, blockBytes, Part.stores, Part.bytes, writeVarintUnchecked_eq,
    storeAll_append, Nat.add_assoc]

/-- A header and its value are filled in by either path. -/
theorem writeHeaderValue_performs (header value : Unsigned) :
    Performs (varintBytes header ++ varintBytes value) (writeHeaderValue header value) := by
  intro os hsound
  by_cases hroom : os.offset + 2 * maxVarintLen ≤ os.end_
  · have hblock := @performed_block Eq os [.narrow header, .wide value] hroom
    rw [writeHeaderValue_room header value hroom]
    simpa [blockBytes, Part.bytes] using hblock
  · rw [writeHeaderValue, if_neg hroom]
    exact writeVarintSplits_performs header value os hsound

/-- With room for any two varints a header and its word are stored by the kernels. -/
theorem writeHeaderWord_room {os : OStream} (header word : Unsigned)
    (hroom : 2 * maxVarintLen ≤ os.end_ - os.offset) :
    writeHeaderWord header word os = (os.perform [.narrow header, .narrow word], .ok ()) := by
  rw [writeHeaderWord, if_pos hroom, writeVarintUncheckedNarrow_eq]
  simp [perform, blockStores, blockBytes, Part.stores, Part.bytes, writeVarintUncheckedNarrow_eq,
    storeAll_append, Nat.add_assoc]

/-- What fits in the room left is within the end. -/
theorem Sound.fits {os : OStream} (hsound : Sound os) {n : ℕ} (h : n ≤ os.end_ - os.offset) :
    os.offset + n ≤ os.end_ := by
  have hinside := hsound.offset_le
  omega

/-- A header and its word are filled in by either path. -/
theorem writeHeaderWord_performs (header word : Unsigned) :
    Performs (varintBytes header ++ varintBytes word) (writeHeaderWord header word) := by
  intro os hsound
  by_cases hroom : 2 * maxVarintLen ≤ os.end_ - os.offset
  · have hblock := @performed_block Eq os [.narrow header, .narrow word] (hsound.fits hroom)
    rw [writeHeaderWord_room header word hroom]
    simpa [blockBytes, Part.bytes] using hblock
  · rw [writeHeaderWord, if_neg hroom]
    exact writeVarintSplits_performs header word os hsound

/-- A header, its word and a payload are filled in one after the other. -/
theorem writeFixlenSplit_performs (header word : Unsigned) (data : List UInt8) :
    Performs (varintBytes header ++ varintBytes word ++ data)
      (writeFixlenSplit header word data) :=
  (writeHeaderWord_performs header word).bind (pushRaw_performs data)

/-- With room for two varints and the payload all three are stored as a block. -/
theorem writeHeaderWordData_room {os : OStream} (header word : Unsigned) (data : List UInt8)
    (hroom : 2 * maxVarintLen + data.length ≤ os.end_ - os.offset) :
    writeHeaderWordData header word data os =
      (os.perform [.narrow header, .narrow word, .raw data], .ok ()) := by
  rw [writeHeaderWordData, if_pos hroom, writeVarintUncheckedNarrow_eq]
  simp [perform, blockStores, blockBytes, Part.stores, Part.bytes, writeVarintUncheckedNarrow_eq,
    storeAll_append, Nat.add_assoc]

/-- A header, its word and a payload are filled in by either path. -/
theorem writeHeaderWordData_performs (header word : Unsigned) (data : List UInt8) :
    Performs (varintBytes header ++ varintBytes word ++ data)
      (writeHeaderWordData header word data) := by
  intro os hsound
  by_cases hroom : 2 * maxVarintLen + data.length ≤ os.end_ - os.offset
  · have hreserve : blockReserve [.narrow header, .narrow word, .raw data] =
        2 * maxVarintLen + data.length := by
      simp [blockReserve, Part.reserve, maxVarintLen]
      omega
    have hblock := @performed_block Eq os [.narrow header, .narrow word, .raw data]
      (hreserve ▸ hsound.fits hroom)
    rw [writeHeaderWordData_room header word data hroom]
    simpa [blockBytes, Part.bytes] using hblock
  · rw [writeHeaderWordData, if_neg hroom]
    exact writeFixlenSplit_performs header word data os hsound

/-! ## Runs -/

/-- The bytes that count in a block of varints are theirs. -/
theorem blockBytes_wide (values : List Unsigned) :
    blockBytes (values.map .wide) = values.flatMap varintBytes := List.flatMap_map ..

/-- A block of varints sets ten bytes aside for each. -/
theorem blockReserve_wide (values : List Unsigned) :
    blockReserve (values.map .wide) = values.length * maxVarintLen := by
  induction values with
  | nil => rfl
  | cons value values ih =>
    rw [List.map_cons, blockReserve_cons, ih, List.length_cons, Nat.succ_mul, Nat.add_comm]
    rfl

/-- A run of varints is a block. -/
theorem storeRun_eq (values : List Unsigned) (buf : List UInt8) (off : ℕ) :
    storeRun buf off values = (storeAll buf (blockStores off (values.map .wide)),
      off + (blockBytes (values.map .wide)).length) := by
  induction values generalizing buf off with
  | nil => rfl
  | cons value values ih =>
    rw [storeRun, writeVarintUnchecked_eq]
    simp only
    rw [ih, List.map_cons, blockStores, storeAll_append, blockBytes_cons, List.length_append,
      Nat.add_assoc]
    rfl

section Run

variable {α : Type} (toWire : α → Unsigned)

/-- Elements that fit in the room left go out in one block. -/
theorem performed_run {os : OStream} (hsound : Sound os) (values : List Unsigned)
    (hroom : values.length * maxVarintLen ≤ os.end_ - os.offset) :
    Performed Eq os (values.flatMap varintBytes) (os.perform (values.map .wide), .ok ()) := by
  rw [← blockBytes_wide]
  refine performed_block _ ?_
  rw [blockReserve_wide]
  exact hsound.fits hroom

/-- The elements of an integer array are filled in chunk by chunk. -/
theorem writeVarintRunChunked_performs (data : List α) :
    Performs ((data.map toWire).flatMap varintBytes) (writeVarintRunChunked toWire data) := by
  induction hlen : data.length using Nat.strongRecOn generalizing data with
  | _ len ih =>
    subst hlen
    intro os hsound
    cases data with
    | nil =>
      rw [writeVarintRunChunked]
      exact .done os
    | cons e rest =>
      rw [writeVarintRunChunked]
      simp only
      split
      · rw [List.map_cons, List.flatMap_cons]
        exact (writeVarintSplit_performs (toWire e)).bind
          (ih rest.length (Nat.lt_succ_self _) rest rfl) os hsound
      · next hroom =>
        generalize hrun : min ((os.end_ - os.offset) / maxVarintLen) (e :: rest).length = run
        have hpos : 0 < run := by
          rw [← hrun]
          exact lt_min (Nat.pos_of_ne_zero hroom) (Nat.succ_pos _)
        have hlen : (((e :: rest).take run).map toWire).length * maxVarintLen ≤
            os.end_ - os.offset := by
          refine (Nat.le_div_iff_mul_le (by decide)).mp ?_
          rw [List.length_map, List.length_take, ← hrun]
          exact (Nat.min_le_left _ _).trans (Nat.min_le_left _ _)
        have hblock := performed_run hsound _ hlen
        have hsound' := (reached_perform hsound ((((e :: rest).take run).map toWire).map .wide)
          (by rw [blockReserve_wide]; exact hsound.fits hlen)).sound
        have hrest := ih ((e :: rest).drop run).length
          (by rw [List.length_drop, List.length_cons]; omega) _ rfl _ hsound'
        have hall := hblock.append hrest
        rw [← List.flatMap_append, ← List.map_append, List.take_append_drop] at hall
        rw [storeRun_eq]
        exact hall

/-- The elements of an integer array are filled in by either path. -/
theorem writeVarintRun_performs (data : List α) :
    Performs ((data.map toWire).flatMap varintBytes) (writeVarintRun data toWire) := by
  intro os hsound
  rw [writeVarintRun]
  split
  · next hroom =>
    rw [storeRun_eq]
    exact performed_run hsound _ (by rw [List.length_map]; exact hroom)
  · exact writeVarintRunChunked_performs toWire data os hsound

/-- Elements pushed one by one are filled in. -/
theorem pushEach_performs (toLe : α → List UInt8) (data : List α) :
    Performs (data.flatMap toLe) (pushEach toLe data) := by
  induction data with
  | nil => exact performs_pure
  | cons e rest ih =>
    rw [List.flatMap_cons]
    exact (pushRaw_performs (toLe e)).bind ih

/-- Both byte orders push the little-endian images of the elements. -/
theorem writeFixlenRun_performs (host : Endian) (data : List α) (toLe : α → List UInt8) :
    Performs (data.flatMap toLe) (writeFixlenRun host data toLe) := by
  cases host with
  | little => exact pushRaw_performs _
  | big => exact pushEach_performs toLe data

end Run

end Sofab
