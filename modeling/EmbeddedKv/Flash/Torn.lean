import EmbeddedKv.Flash.Walk

/-!
# Torn records

What `Repair` makes of a file of which a crash has left a part, and what `Read` makes of
the addresses that `Repair` finds there.

## The model

What is left is a prefix of the log of the file. An address is `Torn` if `Deserialize`
refuses what is there, however much of it is read.

## What is proved

- `repair_of_cut`: on a prefix of a log, cut anywhere, `Repair` returns. It finds the
  records that are complete, and at most one address behind them, which is torn. Where the
  file ends within a header, the header is read over the one before, and what it announces
  still ends behind the end of the file (`sizes_readHeader_le`).
- `read_stored`: what `Read` returns for the address of a record is the record.
-/

namespace EmbeddedKv.Flash

open EmbeddedKv.Library WriteableCacheFile

variable {crc : Bytes → UInt32} {mode : FlashcacheMode} {garbage : ℕ → ℕ → UInt8} {f : WriteableCacheFile}
  {file rest key val : Bytes} {recs : List (Bytes × Bytes)} {cacheId : UInt32} {start fuel : ℕ} {lba : LBA}
  {hdr : CacheRecordHeader}

/-- **Nothing can be read at an address** of a file: what is there is refused by `Deserialize`,
however much of it is read. -/
def Torn (crc : Bytes → UInt32) (file : Bytes) (lba : LBA) : Prop :=
  ∀ out mem, out <+: file.drop lba.off.toNat → CacheRecord.deserialize crc (out ++ mem) out.length = none

/-- `Read` fails there. -/
theorem Torn.read (h : Torn crc file lba) (hcl : f.closed mode = true) (hfd : f.fd = some file) {env : Environment}
    {out : Option (Bytes × Bytes)} (hr : f.read crc mode env lba = .ok out) : out = none := by
  unfold WriteableCacheFile.read at hr
  rw [if_pos hcl, hfd] at hr
  simp only at hr
  cases hl : preadLoop env.preads env.errnoEintr (file.drop lba.off.toNat) lba.size.toNat [] true with
  | error e => rw [hl] at hr; cases hr
  | ok q =>
    obtain ⟨acc, neg⟩ := q
    rw [hl] at hr
    cases hr
    cases neg with
    | true => rfl
    | false =>
      obtain ⟨m, hm⟩ := preadLoop_ok hl
      rw [List.nil_append] at hm
      have hnone := h acc (env.scratch.drop acc.length) (hm ▸ List.take_prefix _ _)
      simp only [Bool.false_eq_true, if_false, hnone, Option.map_none]

/-- The bytes of a record start with its header. -/
theorem header_prefix_image (crc : Bytes → UInt32) (key val : Bytes) :
    (CacheRecord.new crc key val).hdr.bytes <+: image crc key val := by
  rw [image, CacheRecord.bytes, List.append_assoc]
  exact List.prefix_append _ _

/-- A part of a record is torn. -/
theorem torn_of_cut (hsize : recordSize key val < 2 ^ 32) (hfile : file.drop lba.off.toNat = rest)
    (hrest : rest <+: image crc key val) (hlt : rest.length < recordSize key val) : Torn crc file lba := by
  intro out mem hout
  rw [hfile] at hout
  by_contra hne
  obtain ⟨r, hr⟩ := Option.ne_none_iff_exists'.mp hne
  obtain ⟨h16, hsum⟩ := CacheRecord.deserialize_size hr
  obtain ⟨more, rfl⟩ : (CacheRecord.new crc key val).hdr.bytes <+: out :=
    List.prefix_of_prefix_length_le (header_prefix_image crc key val) (hout.trans hrest) (by simpa using h16)
  rw [List.append_assoc, CacheRecordHeader.ofBytes_bytes_append, headerSum_image crc hsize] at hsum
  have hle := hout.length_le
  omega

/-! ### The walk over a part of a log -/

/-- `pread` of what is left of a record puts it over the header before. -/
theorem preadInto_eq_splice {new mem : Bytes} (hfile : file.drop start = rest) (hrest : rest <+: new)
    (hlt : rest.length ≤ mem.length) : preadInto file start mem = splice rest.length new mem := by
  rw [preadInto, hfile, List.take_of_length_le hlt, splice, ← List.prefix_iff_eq_take.mp hrest]

/-- **The header of a record of which less than a header is left** announces at most what the
record and the header before announce together. -/
theorem sizes_readHeader_le (hfile : file.drop start = rest) (hrest : rest <+: (CacheRecord.new crc key val).hdr.bytes) :
    (readHeader file start hdr).keySize.toNat ≤ (UInt32.ofNat key.length).toNat + hdr.keySize.toNat ∧
      (readHeader file start hdr).valSize.toNat ≤ (UInt32.ofNat val.length).toNat + hdr.valSize.toNat := by
  have hlen : (CacheRecord.new crc key val).hdr.bytes.length = hdr.bytes.length := by simp
  have hle : rest.length ≤ hdr.bytes.length := hlen ▸ hrest.length_le
  have hback : ∀ h : CacheRecordHeader, CacheRecordHeader.ofBytes h.bytes = h := by
    intro h
    have happ := CacheRecordHeader.ofBytes_bytes_append h []
    rwa [List.append_nil] at happ
  rw [readHeader, preadInto_eq_splice hfile hrest hle]
  refine ⟨?_, ?_⟩
  · calc _ ≤ _ := toNat_ofLe32_splice_le hlen rest.length 8
      _ = (CacheRecordHeader.ofBytes (CacheRecord.new crc key val).hdr.bytes).keySize.toNat +
          (CacheRecordHeader.ofBytes hdr.bytes).keySize.toNat := rfl
      _ = _ := by rw [hback, hback]; rfl
  · calc _ ≤ _ := toNat_ofLe32_splice_le hlen rest.length 12
      _ = (CacheRecordHeader.ofBytes (CacheRecord.new crc key val).hdr.bytes).valSize.toNat +
          (CacheRecordHeader.ofBytes hdr.bytes).valSize.toNat := rfl
      _ = _ := by rw [hback, hback]; rfl

/-- **What `Repair` finds behind the complete records** of a file, which end at `start`: nothing
if the file ends there, and otherwise one torn address, from there to behind the end. -/
inductive TornTail (crc : Bytes → UInt32) (cacheId : UInt32) (file : Bytes) (start : ℕ) : List (Bytes × LBA) → Prop where
  /-- The file ends with a record. -/
  | none (hend : start = file.length) : TornTail crc cacheId file start []
  /-- The file ends within a record. -/
  | cut {c : Bytes × LBA} (hid : c.2.cacheId = cacheId) (hoff : c.2.off.toNat = start) (hlt : start < file.length)
      (hend : file.length < start + c.2.size.toNat) (htorn : Torn crc file c.2) : TornTail crc cacheId file start [c]

/-- What is found there is torn. -/
theorem TornTail.torn {calls : List (Bytes × LBA)} (h : TornTail crc cacheId file start calls) {c : Bytes × LBA}
    (hc : c ∈ calls) : c.2.cacheId = cacheId ∧ file.length < c.2.off.toNat + c.2.size.toNat ∧ Torn crc file c.2 := by
  cases h with
  | none => cases hc
  | cut hid hoff hlt hend htorn =>
    obtain rfl := List.mem_singleton.mp hc
    exact ⟨hid, hoff ▸ hend, htorn⟩

/-- **One round over a part of a record** passes the end of the file, and the address it finds
is torn. -/
theorem repairLoop_torn (hrest : file.drop start = rest) (hpre : rest <+: image crc key val)
    (hlt : rest.length < recordSize key val) (hne : rest ≠ []) (hfile : f.filesize.toNat = file.length)
    (hhdr : hdr.keySize.toNat + hdr.valSize.toNat ≤ start) (hsize : start + recordSize key val < 2 ^ 32) :
    ∃ tail, f.repairLoop garbage file (fuel + 2) start hdr = .ok tail ∧ TornTail crc f.cacheId file start tail := by
  have hlength : rest.length = file.length - start := by rw [← hrest, List.length_drop]
  have hpos := List.length_pos_of_ne_nil hne
  have hbound := f.filesize.toNat_lt
  have hoff : (UInt32.ofNat start).toNat = start := by
    rw [UInt32.toNat_ofNat', Nat.mod_eq_of_lt (by omega)]
  have hkey : (UInt32.ofNat key.length).toNat = key.length := by
    rw [UInt32.toNat_ofNat', Nat.mod_eq_of_lt]
    unfold recordSize at hsize
    omega
  have hval : (UInt32.ofNat val.length).toNat = val.length := by
    rw [UInt32.toNat_ofNat', Nat.mod_eq_of_lt]
    unfold recordSize at hsize
    omega
  have htorn : ∀ size, Torn crc file ⟨f.cacheId, UInt32.ofNat start, size⟩ := by
    intro size
    exact torn_of_cut (by omega) (by rw [hoff]; exact hrest) hpre hlt
  -- the next place is behind the end of the file
  have hwidth : rest.length < (readHeader file start hdr).width.toNat := by
    by_cases h16 : rest.length < headerSize
    · have hpre' : rest <+: (CacheRecord.new crc key val).hdr.bytes :=
        List.prefix_of_prefix_length_le hpre (header_prefix_image crc key val) (by simpa using Nat.le_of_lt h16)
      obtain ⟨hk, hv⟩ : (readHeader file start hdr).keySize.toNat ≤ _ ∧ (readHeader file start hdr).valSize.toNat ≤ _ :=
        sizes_readHeader_le hrest hpre'
      rw [hkey] at hk
      rw [hval] at hv
      rw [CacheRecordHeader.width, UInt32.toNat_add, UInt32.toNat_add, UInt32.toNat_ofNat']
      unfold recordSize headerSize at *
      omega
    · obtain ⟨more, hmore⟩ : (CacheRecord.new crc key val).hdr.bytes <+: rest :=
        List.prefix_of_prefix_length_le (header_prefix_image crc key val) hpre (by simpa using h16)
      have hwhole : readHeader file start hdr = (CacheRecord.new crc key val).hdr := by
        have hback := CacheRecordHeader.ofBytes_bytes_append (CacheRecord.new crc key val).hdr []
        rw [List.append_nil] at hback
        rw [readHeader, preadInto_of_drop (hrest.trans hmore.symm) (by simp), hback]
      rw [hwhole]
      show rest.length < (UInt32.ofNat key.length + UInt32.ofNat val.length + UInt32.ofNat headerSize).toNat
      rw [UInt32.toNat_add, UInt32.toNat_add, hkey, hval, UInt32.toNat_ofNat']
      unfold recordSize headerSize at *
      omega
  have hround := @repairLoop_succ garbage f file ⟨start, hdr, [], []⟩ (fuel + 1)
    (show start < f.filesize.toNat by omega)
  have hend : f.repairLoop garbage file (fuel + 1) (f.repairRound garbage file ⟨start, hdr, [], []⟩).startPos
      (f.repairRound garbage file ⟨start, hdr, [], []⟩).hdr = .ok [] := by
    rw [repairLoop, if_neg]
    rw [hfile]
    show ¬ start + (readHeader file start hdr).width.toNat < file.length
    omega
  rw [hend] at hround
  refine ⟨_, hround, .cut rfl hoff (by omega) ?_ (htorn _)⟩
  show file.length < start + (readHeader file start hdr).width.toNat
  omega

/-- **The loop over a part of a log** finds the records that are complete, and at most one
torn address behind them. -/
theorem repairLoop_part (garbage : ℕ → ℕ → UInt8) (hrest : file.drop start = rest) (hpre : rest <+: images crc recs)
    (hfile : f.filesize.toNat = file.length) (hstart : start ≤ file.length)
    (hhdr : hdr.keySize.toNat + hdr.valSize.toNat ≤ start)
    (hsize : start + imagesSize recs < 2 ^ 32) (hfuel : rest.length < fuel) :
    ∃ tail, f.repairLoop garbage file fuel start hdr = .ok (located f.cacheId start (complete rest.length recs) ++ tail) ∧
      TornTail crc f.cacheId file (start + imagesSize (complete rest.length recs)) tail := by
  obtain ⟨fuel, rfl⟩ : ∃ n, fuel = n + 1 := ⟨fuel - 1, by omega⟩
  have hlength : rest.length = file.length - start := by rw [← hrest, List.length_drop]
  induction recs generalizing start rest hdr fuel with
  | nil =>
    obtain rfl : rest = [] := List.prefix_nil.mp hpre
    rw [List.length_nil] at hlength
    refine ⟨[], ?_, .none (show start + 0 = file.length by omega)⟩
    rw [repairLoop, if_neg (by omega)]
    rfl
  | cons r recs ih =>
    rw [imagesSize_cons] at hsize
    rw [images, List.flatMap_cons] at hpre
    by_cases hwhole : recordSize r.1 r.2 ≤ rest.length
    · obtain ⟨more, rfl⟩ : image crc r.1 r.2 <+: rest :=
        List.prefix_of_prefix_length_le (List.prefix_append _ _) hpre (by rw [length_image]; exact hwhole)
      rw [List.prefix_append_right_inj] at hpre
      rw [List.length_append, length_image] at hlength hwhole hfuel
      have hpos := recordSize_pos r.1 r.2
      obtain ⟨fuel, rfl⟩ : ∃ n, fuel = n + 1 := ⟨fuel - 1, by omega⟩
      have hnext : file.drop (start + recordSize r.1 r.2) = more := by
        rw [← List.drop_drop, hrest, List.drop_left' (length_image crc r.1 r.2)]
      have hsizes : (CacheRecord.new crc r.1 r.2).hdr.keySize.toNat + (CacheRecord.new crc r.1 r.2).hdr.valSize.toNat ≤
          start + recordSize r.1 r.2 := by
        show (UInt32.ofNat r.1.length).toNat + (UInt32.ofNat r.2.length).toNat ≤ _
        rw [UInt32.toNat_ofNat', UInt32.toNat_ofNat']
        have h₁ := Nat.mod_le r.1.length (2 ^ 32)
        have h₂ := Nat.mod_le r.2.length (2 ^ 32)
        unfold recordSize
        omega
      obtain ⟨tail, htail, htorn⟩ := ih hnext hpre (by omega) hsizes (by omega) fuel (by omega) (by omega)
      have hcomplete : complete (image crc r.1 r.2 ++ more).length (r :: recs) = r :: complete more.length recs := by
        rw [List.length_append, length_image, complete, if_pos (Nat.le_add_right _ _), Nat.add_sub_cancel_left]
      refine ⟨tail, ?_, ?_⟩
      · rw [repairLoop_record hrest (by omega) (by omega), htail, hcomplete, located]
        rfl
      · rw [hcomplete, imagesSize_cons, ← Nat.add_assoc]
        exact htorn
    · rw [complete, if_neg hwhole, located, imagesSize_nil, Nat.add_zero]
      have hpre' : rest <+: image crc r.1 r.2 :=
        List.prefix_of_prefix_length_le hpre (List.prefix_append _ _) (by rw [length_image]; omega)
      by_cases hne : rest = []
      · rw [hne, List.length_nil] at hlength
        refine ⟨[], ?_, .none (by omega)⟩
        rw [repairLoop, if_neg (by omega)]
        rfl
      · have hpos := List.length_pos_of_ne_nil hne
        obtain ⟨fuel, rfl⟩ : ∃ n, fuel = n + 1 := ⟨fuel - 1, by omega⟩
        obtain ⟨tail, htail, htorn⟩ := repairLoop_torn hrest hpre' (by omega) hne hfile hhdr (by omega)
        exact ⟨tail, htail, htorn⟩

/-- **`Repair` of a part of a log**, wherever it is cut, returns: it finds the records that are
complete, and one torn address behind them if the file does not end there. -/
theorem repair_of_cut (garbage : ℕ → ℕ → UInt8) (cacheId : UInt32) (hpre : file <+: images crc recs)
    (hsize : imagesSize recs < 2 ^ 32) :
    ∃ tail, (WriteableCacheFile.opened cacheId file).repair garbage =
        .ok (located cacheId 0 (complete file.length recs) ++ tail) ∧
      TornTail crc cacheId file (imagesSize (complete file.length recs)) tail := by
  have hlen : file.length < 2 ^ 32 := Nat.lt_of_le_of_lt hpre.length_le (by rw [length_images]; exact hsize)
  have hfilesize := toNat_filesize_opened cacheId hlen
  have hrun := @repairLoop_part crc (WriteableCacheFile.opened cacheId file) file file recs 0
    ((WriteableCacheFile.opened cacheId file).filesize.toNat + 1) ⟨0, 0, 0, 0⟩ garbage rfl hpre hfilesize
    (Nat.zero_le _) (Nat.le_refl 0) (by omega) (by omega)
  rw [Nat.zero_add] at hrun
  exact hrun

/-- A file that ends within the header of its second record. -/
theorem repair_of_cut_header : ∃ c, (WriteableCacheFile.opened 7
      ((images (fun _ => 0) [([97], [98]), ([99], [100])]).take 23)).repair (fun _ _ => 0) =
        .ok [([97], ⟨7, 0, 18⟩), c] ∧ c.2.off.toNat = 18 := by
  obtain ⟨tail, hr, htail⟩ := repair_of_cut (fun _ _ => 0) 7
    (List.take_prefix 23 (images (fun _ => 0) [([97], [98]), ([99], [100])])) (by decide)
  cases htail with
  | none hend => exact absurd hend (by decide)
  | cut hid hoff hlt hend htorn => exact ⟨_, hr, hoff⟩

/-- The complete records of a part of a log come from the log. -/
theorem complete_isPrefix (n : ℕ) (recs : List (Bytes × Bytes)) : (complete n recs) <+: recs := by
  induction recs generalizing n with
  | nil => exact List.prefix_refl _
  | cons r recs ih =>
    rw [complete]
    split_ifs
    · exact (List.prefix_cons_inj r).mpr (ih _)
    · exact List.nil_prefix

/-- **The addresses of records lead to them.** -/
theorem at_of_located (hfile : file.drop start = images crc recs ++ rest) (hsize : start + imagesSize recs < 2 ^ 32)
    {c : Bytes × LBA} (hc : c ∈ located cacheId start recs) : c.2.cacheId = cacheId ∧
      ∃ val, (c.1, val) ∈ recs ∧ recordSize c.1 val < 2 ^ 32 ∧ At file c.2 (image crc c.1 val) := by
  induction recs generalizing start with
  | nil => cases hc
  | cons r recs ih =>
    rw [imagesSize_cons] at hsize
    have hcons : file.drop start = image crc r.1 r.2 ++ (images crc recs ++ rest) := by
      rw [hfile, images, List.flatMap_cons, List.append_assoc]
      rfl
    rw [located, List.mem_cons] at hc
    rcases hc with rfl | hc
    · refine ⟨rfl, r.2, List.mem_cons_self, show recordSize r.1 r.2 < 2 ^ 32 by omega, ?_, ?_⟩
      · exact (CacheRecord.toNat_calcSize_of_lt (by omega)).trans (length_image crc r.1 r.2).symm
      · show (file.drop (UInt32.ofNat start).toNat).take _ = _
        rw [UInt32.toNat_ofNat', Nat.mod_eq_of_lt (by omega), hcons, List.take_left']
        rfl
    · have hnext : file.drop (start + recordSize r.1 r.2) = images crc recs ++ rest := by
        rw [← List.drop_drop, hcons, List.drop_left' (length_image crc r.1 r.2)]
      obtain ⟨hid, val, hin, hlt, hat⟩ := ih hnext (by omega) hc
      exact ⟨hid, val, List.mem_cons_of_mem _ hin, hlt, hat⟩

/-! ### Reading a record -/

/-- **What `Read` returns for the address of a record** is the record, however much of it is in
the file. -/
theorem read_stored {log : Bytes} (h : f.Holds log) (hat : At log lba (image crc key val)) (hk : NulFree key)
    (hv : NulFree val) (hsize : recordSize key val < 2 ^ 32) {env : Environment} {r : Bytes × Bytes}
    (hr : f.read crc mode env lba = .ok (some r)) : r = (key, val) := by
  have hs : lba.size.toNat = recordSize key val := by rw [hat.1, length_image]
  have himage : image crc key val <+: log.drop lba.off.toNat := by
    rw [← hat.2]
    exact List.take_prefix _ _
  have back : ∀ (mem : Bytes) {n : ℕ}, n = recordSize key val →
      (CacheRecord.deserialize crc (image crc key val ++ mem) n).map (fun r => (r.key, r.val)) = some r → r = (key, val) := by
    rintro mem n rfl hsome
    rw [CacheRecord.deserialize_image crc hk hv hsize] at hsome
    exact (Option.some.inj hsome).symm
  unfold WriteableCacheFile.read at hr
  cases hcl : f.closed mode with
  | true =>
    obtain ⟨d, hd, hpre⟩ := h.file
    rw [if_pos hcl, hd] at hr
    simp only at hr
    cases hl : preadLoop env.preads env.errnoEintr (d.drop lba.off.toNat) lba.size.toNat [] true with
    | error e => rw [hl] at hr; cases hr
    | ok q =>
      obtain ⟨out, neg⟩ := q
      rw [hl] at hr
      replace hr := Except.ok.inj hr
      obtain ⟨rec, hrec, -⟩ := Option.map_eq_some_iff.mp hr
      obtain ⟨h16, hsum⟩ := CacheRecord.deserialize_size hrec
      cases neg with
      | true => simp [headerSize] at h16
      | false =>
        simp only [Bool.false_eq_true, if_false] at h16 hsum hr
        obtain ⟨m, hm⟩ := preadLoop_ok hl
        rw [List.nil_append] at hm
        have hout : out <+: log.drop lba.off.toNat := by
          obtain ⟨t, rfl⟩ := hpre
          rw [hm, List.drop_append]
          exact (List.take_prefix _ _).trans (List.prefix_append _ _)
        -- the header that was read is that of the record, so as much as the record was read
        obtain ⟨more, hmore⟩ : (CacheRecord.new crc key val).hdr.bytes <+: out :=
          List.prefix_of_prefix_length_le ((header_prefix_image crc key val).trans himage) hout (by simpa using h16)
        have hmem : CacheRecordHeader.ofBytes (out ++ env.scratch.drop out.length) = (CacheRecord.new crc key val).hdr := by
          rw [← hmore, List.append_assoc, CacheRecordHeader.ofBytes_bytes_append]
        rw [hmem, headerSum_image crc hsize] at hsum
        have heq : image crc key val = out :=
          (List.prefix_of_prefix_length_le himage hout (by rw [length_image]; omega)).eq_of_length
            (by rw [length_image]; omega)
        rw [← heq] at hr
        exact back _ (length_image crc key val) hr
  | false =>
    rw [hcl, if_neg Bool.false_ne_true] at hr
    cases hb : f.readBuffer lba with
    | error e => rw [hb] at hr; cases hr
    | ok q =>
      obtain ⟨b, tmp⟩ := q
      rw [hb] at hr
      cases b with
      | false => cases hr
      | true =>
        obtain ⟨htmp, -⟩ := (readBuffer_iff tmp h.bufs (by rw [hs]; exact recordSize_pos key val)).mp hb
        have heq : tmp = image crc key val := by
          rw [htmp, hat.1]
          exact hat.2
        rw [heq] at hr
        exact back _ hs (Except.ok.inj hr)

end EmbeddedKv.Flash
