import Zs3Server.Gateway.ChunkPipe

/-!
# How the chunks of an upload end

The last chunk that the chunking goroutine sends should carry `io.EOF`.  For that the goroutine keeps one chunk
back whenever its buffer consists of whole chunks, but only if there is more than one.  A buffer of exactly one
chunk is sent without the mark, and if no more data comes nothing is left to put the mark on.

* `chunkerSends` — what the goroutine sends for the blocks it receives, up to the end;
* `heldBack_iff` — for which blocks something is left in the buffer at the end;
* `final_chunk_iff` — for which uploads the last chunk announces the end;
* `final_chunk_silent` — one block of one chunk, and a chunk that was kept back and is let go by an empty block.
-/

namespace Zs3Server.Gateway.ChunkPipe

open Lib.Chunks

variable {W : Type}

/-! ### What is sent -/

/-- The goroutine is in its `select`. -/
def Pipe.resume (p : Pipe W) : Pipe W := { p with chunker := .select }

/-- What the goroutine sends from its `select` on, for the blocks that come before `dataC` is closed. -/
def chunkerSends (cfg : PipeConfig W) : Pipe W → List (List UInt8) → List MemFileData
  | p, [] => (p.flush cfg).pending
  | p, data :: blocks => (p.write cfg data).pending ++ chunkerSends cfg (p.write cfg data).resume blocks

/-- The bytes that come to the buffer for each block. -/
def PipeConfig.outputs (cfg : PipeConfig W) : W → List (List UInt8) → List (List UInt8)
  | _, [] => []
  | zw, data :: blocks => (cfg.write zw data).2.1 :: cfg.outputs (cfg.write zw data).1 blocks

section Operations

variable {cfg : PipeConfig W} {p : Pipe W}

/-- What a write cuts off and what it leaves. -/
theorem write_spec (data : List UInt8) (hpc : p.chunker = .select)
    (hok : (cfg.write p.zw data).2.2 = true) {buf : List UInt8}
    (hbuf : p.buf ++ (cfg.write p.zw data).2.1 = buf) {n : ℕ} (hn : emitCount cfg.chunkWriteSize buf.length = n) :
    (p.write cfg data).pending =
        (cut cfg.chunkWriteSize (buf.take (n * cfg.chunkWriteSize))).map (fun c => ⟨c, none⟩) ∧
      (p.write cfg data).buf = buf.drop (n * cfg.chunkWriteSize) ∧
      (p.write cfg data).zw = (cfg.write p.zw data).1 := by
  unfold Pipe.write
  simp only [hbuf, hn, hok]
  rw [if_neg (by simp)]
  by_cases hn0 : n = 0
  · subst hn0
    rw [if_pos rfl, Nat.zero_mul, List.take_zero, List.drop_zero, cut_nil]
    refine ⟨?_, rfl, rfl⟩
    simp only [Pipe.pending, hpc, List.map_nil]
  · rw [if_neg hn0]
    exact ⟨rfl, rfl, rfl⟩

theorem flush_pending (hok : (cfg.close p.zw).2.2 = true) :
    (p.flush cfg).pending = markEof (cut cfg.chunkWriteSize (p.buf ++ (cfg.close p.zw).2.1)) := by
  unfold Pipe.flush
  simp only [hok]
  rw [if_neg (by simp)]
  rfl

end Operations

/-! ### What is left in the buffer -/

/-- What is left of a buffer of `r` bytes after `len` more. -/
def leftOver (k r len : ℕ) : ℕ := r + len - emitCount k (r + len) * k

theorem leftOver_of_dvd {k r len : ℕ} (hk : 0 < k) (h : k ∣ r + len) :
    leftOver k r len = if r + len ≤ k then 0 else k := by
  obtain ⟨m, hm⟩ := h
  unfold leftOver emitCount
  rw [hm, Nat.mul_mod_right, Nat.mul_div_cancel_left m hk]
  by_cases hone : m ≤ 1
  · rw [if_neg (by omega), if_pos (by nlinarith), Nat.mul_comm m k, Nat.sub_self]
  · rw [if_pos ⟨rfl, by omega⟩, if_neg (by nlinarith), Nat.sub_mul, Nat.one_mul, Nat.mul_comm m k]
    have hle : k ≤ k * m := Nat.le_mul_of_pos_right k (by omega)
    omega

theorem leftOver_of_not_dvd {k r len : ℕ} (h : ¬ k ∣ r + len) : leftOver k r len = (r + len) % k := by
  have hmod : (r + len) % k ≠ 0 := fun h0 => h (Nat.dvd_of_mod_eq_zero h0)
  unfold leftOver emitCount
  rw [if_neg fun hc => hmod hc.1]
  have hdiv := Nat.div_add_mod (r + len) k
  rw [Nat.mul_comm] at hdiv
  omega

/-- A block keeps its bytes for the end: the blocks are not whole chunks together, or the last block that is not
just one chunk is longer than a chunk. -/
def HeldBack (k : ℕ) (lens : List ℕ) : Prop :=
  ¬ k ∣ lens.sum ∨ ∃ len, (lens.filter (· ≠ k)).getLast? = some len ∧ k < len

theorem leftOver_mod (k r len : ℕ) : leftOver k r len % k = (r + len) % k := by
  unfold leftOver
  have hle := emitCount_mul_le k (r + len)
  rw [Nat.mul_comm] at hle ⊢
  exact Nat.sub_mul_mod hle

theorem leftOver_le {k : ℕ} (hk : 0 < k) (r len : ℕ) : leftOver k r len ≤ k := by
  by_cases hwhole : k ∣ r + len
  · rw [leftOver_of_dvd hk hwhole]
    split_ifs
    · exact Nat.zero_le k
    · exact le_refl k
  · rw [leftOver_of_not_dvd hwhole]
    exact (Nat.mod_lt _ hk).le

/-- Where whole chunks come together, a block other than one chunk decides what is left. -/
theorem leftOver_pos_iff {k r len : ℕ} (hk : 0 < k) (hr : r ≤ k) (hwhole : k ∣ r + len) (hlen : len ≠ k) :
    0 < leftOver k r len ↔ k < len := by
  rw [leftOver_of_dvd hk hwhole]
  split_ifs with hsmall
  · exact ⟨fun h => absurd h (lt_irrefl 0), fun h => by omega⟩
  · refine ⟨fun _ => ?_, fun _ => hk⟩
    -- there are two chunks or more, and at most one was there before
    obtain ⟨m, hm⟩ := hwhole
    have hm2 : 2 ≤ m := by
      by_contra hlt
      have : k * m ≤ k * 1 := Nat.mul_le_mul_left k (by omega)
      omega
    have : k * 2 ≤ k * m := Nat.mul_le_mul_left k hm2
    omega

/-- A block of one chunk leaves as much as there was. -/
theorem leftOver_chunk_pos_iff {k r : ℕ} (hk : 0 < k) (hwhole : k ∣ r + k) : 0 < leftOver k r k ↔ 0 < r := by
  rw [leftOver_of_dvd hk hwhole]
  split_ifs with hsmall
  · exact ⟨fun h => absurd h (lt_irrefl 0), fun h => by omega⟩
  · exact ⟨fun _ => by omega, fun _ => hk⟩

theorem heldBack_append_chunk {k : ℕ} {lens : List ℕ} (hsum : k ∣ lens.sum) :
    HeldBack k (lens ++ [k]) ↔ HeldBack k lens := by
  have hsum' : k ∣ (lens ++ [k]).sum := by
    rw [List.sum_append, List.sum_singleton]
    exact dvd_add hsum (dvd_refl k)
  have hfilter : (lens ++ [k]).filter (· ≠ k) = lens.filter (· ≠ k) := by
    rw [List.filter_append]
    simp
  unfold HeldBack
  rw [hfilter]
  exact or_congr_left ⟨fun h => absurd hsum' h, fun h => absurd hsum h⟩

theorem heldBack_append_other {k len : ℕ} {lens : List ℕ} (hsum : k ∣ (lens ++ [len]).sum) (hlen : len ≠ k) :
    HeldBack k (lens ++ [len]) ↔ k < len := by
  have hlast : ((lens ++ [len]).filter (· ≠ k)).getLast? = some len := by
    rw [List.filter_append, show [len].filter (· ≠ k) = [len] by simpa using hlen]
    exact List.getLast?_concat
  unfold HeldBack
  rw [hlast]
  constructor
  · rintro (h | ⟨l, hl, hlt⟩)
    · exact absurd hsum h
    · obtain rfl := Option.some.inj hl
      exact hlt
  · intro h
    exact Or.inr ⟨len, rfl, h⟩

/-- **What is left at the end.**  At most one chunk, and anything at all just if a block holds it back. -/
theorem heldBack_iff {k : ℕ} (hk : 0 < k) (lens : List ℕ) :
    lens.foldl (leftOver k) 0 ≤ k ∧ lens.foldl (leftOver k) 0 % k = lens.sum % k ∧
      (0 < lens.foldl (leftOver k) 0 ↔ HeldBack k lens) := by
  induction lens using List.reverseRecOn with
  | nil =>
    refine ⟨Nat.zero_le k, rfl, fun h => absurd h (lt_irrefl 0), ?_⟩
    rintro (h | ⟨len, hlast, -⟩)
    · exact absurd (dvd_zero k) h
    · cases hlast
  | append_singleton lens len ih =>
    obtain ⟨hle, hmod, hpos⟩ := ih
    rw [List.foldl_append, List.foldl_cons, List.foldl_nil]
    generalize lens.foldl (leftOver k) 0 = r at hle hmod hpos ⊢
    have hsum : (r + len) % k = (lens ++ [len]).sum % k := by
      rw [List.sum_append, List.sum_singleton, Nat.add_mod, hmod, ← Nat.add_mod]
    refine ⟨leftOver_le hk r len, (leftOver_mod k r len).trans hsum, ?_⟩
    by_cases hwhole : k ∣ r + len
    · by_cases hlen : len = k
      · subst hlen
        have hr : len ∣ r := (Nat.dvd_add_left (dvd_refl len)).mp hwhole
        have hlens : len ∣ lens.sum := Nat.dvd_of_mod_eq_zero (hmod ▸ Nat.mod_eq_zero_of_dvd hr)
        rw [leftOver_chunk_pos_iff hk hwhole, heldBack_append_chunk hlens]
        exact hpos
      · have hsum' : k ∣ (lens ++ [len]).sum := Nat.dvd_of_mod_eq_zero (hsum ▸ Nat.mod_eq_zero_of_dvd hwhole)
        rw [leftOver_pos_iff hk hle hwhole hlen, heldBack_append_other hsum' hlen]
    · have hsum' : ¬ k ∣ (lens ++ [len]).sum := fun h =>
        hwhole (Nat.dvd_of_mod_eq_zero (hsum.trans (Nat.mod_eq_zero_of_dvd h)))
      rw [leftOver_of_not_dvd hwhole]
      exact ⟨fun _ => Or.inl hsum', fun _ => Nat.pos_of_ne_zero fun h => hwhole (Nat.dvd_of_mod_eq_zero h)⟩

/-! ### The last chunk -/

/-- The last chunk announces the end: it alone has `io.EOF`, it is not empty, and all before it are whole. -/
def EndsWithEof (k : ℕ) (l : List MemFileData) : Prop :=
  ∃ init last, l = init ++ [last] ∧ last.err = some .eof ∧ last.buf ≠ [] ∧ ∀ x ∈ init, FullChunk k x

theorem markEof_concat (l : List (List UInt8)) (c : List UInt8) :
    markEof (l ++ [c]) = l.map (fun d => ⟨d, none⟩) ++ [⟨c, some .eof⟩] := by
  induction l with
  | nil => rfl
  | cons d l ih =>
    obtain ⟨e, l', hl⟩ := List.exists_cons_of_ne_nil (show l ++ [c] ≠ [] by simp)
    have hstep : markEof (d :: (l ++ [c])) = ⟨d, none⟩ :: markEof (l ++ [c]) := by
      rw [hl]
      rfl
    rw [List.cons_append, hstep, ih]
    rfl

/-- After whole chunks, the flush of a rest announces the end unless the rest is empty. -/
theorem endsWithEof_iff {k : ℕ} (hk : 0 < k) {full : List MemFileData} (hfull : ∀ x ∈ full, FullChunk k x)
    (rest : List UInt8) : EndsWithEof k (full ++ markEof (cut k rest)) ↔ rest ≠ [] := by
  constructor
  · rintro ⟨init, last, heq, herr, -, -⟩ rfl
    rw [cut_nil, markEof, List.append_nil] at heq
    have hnone := (hfull last (heq ▸ List.mem_append_right init (List.mem_singleton_self last))).1
    rw [hnone] at herr
    cases herr
  · intro hrest
    have hne : cut k rest ≠ [] := by
      rw [cut_of_ne_nil hk hrest]
      exact List.cons_ne_nil _ _
    obtain ⟨l, c, hcut⟩ := List.eq_nil_or_concat' (cut k rest) |>.resolve_left hne
    refine ⟨full ++ l.map (fun d => ⟨d, none⟩), ⟨c, some .eof⟩, ?_, rfl, ?_, ?_⟩
    · rw [hcut, markEof_concat, List.append_assoc]
    · exact (mem_cut hk rest c (hcut ▸ List.mem_append_right l (List.mem_singleton_self c))).1
    · intro x hx
      rcases List.mem_append.mp hx with hx | hx
      · exact hfull x hx
      · obtain ⟨d, hd, rfl⟩ := List.mem_map.mp hx
        obtain ⟨pre, post, rfl⟩ := List.append_of_mem hd
        refine ⟨rfl, length_eq_of_not_last hk rest pre d (post ++ [c]) ?_ (by simp)⟩
        rw [hcut, List.append_assoc, List.cons_append]

/-- **What the goroutine sends**: whole chunks, and the flush of what is left. -/
theorem chunkerSends_eq {cfg : PipeConfig W} (hw : cfg.Works) (blocks : List (List UInt8)) :
    ∀ (p : Pipe W) (taken : List (List UInt8)), p.chunker = .select → p.zw = (cfg.encode taken).1 →
      ∃ full rest, (∀ x ∈ full, FullChunk cfg.chunkWriteSize x) ∧
        chunkerSends cfg p blocks = full ++ markEof (cut cfg.chunkWriteSize rest) ∧
        rest.length = ((cfg.outputs p.zw blocks).map List.length).foldl (leftOver cfg.chunkWriteSize) p.buf.length +
          (cfg.close (cfg.encode (taken ++ blocks)).1).2.1.length := by
  induction blocks with
  | nil =>
    intro p taken hpc hzw
    refine ⟨[], p.buf ++ (cfg.close p.zw).2.1, fun x hx => absurd hx List.not_mem_nil, ?_, ?_⟩
    · exact flush_pending (hzw ▸ hw.close_ok taken)
    · rw [List.append_nil, ← hzw, List.length_append]
      rfl
  | cons data blocks ih =>
    intro p taken hpc hzw
    obtain ⟨hpending, hbuf, hzw'⟩ := write_spec data hpc (hzw ▸ hw.write_ok taken data) rfl rfl
    have hencode : (cfg.encode (taken ++ [data])).1 = (cfg.write p.zw data).1 := by
      rw [encode_snoc, ← hzw]
    obtain ⟨full, rest, hfull, hsends, hlength⟩ := ih (p.write cfg data).resume (taken ++ [data]) rfl
      (hzw'.trans hencode.symm)
    refine ⟨(p.write cfg data).pending ++ full, rest, ?_, ?_, ?_⟩
    · intro x hx
      rcases List.mem_append.mp hx with hx | hx
      · rw [hpending] at hx
        obtain ⟨c, hc, rfl⟩ := List.mem_map.mp hx
        refine ⟨rfl, length_eq_of_dvd cfg.chunk_pos _ ?_ c hc⟩
        rw [List.length_take, min_eq_left (emitCount_mul_le _ _)]
        exact Nat.dvd_mul_left _ _
      · exact hfull x hx
    · rw [chunkerSends, hsends, List.append_assoc]
    · rw [hlength, List.append_assoc]
      show _ + _ = List.foldl _ (leftOver cfg.chunkWriteSize p.buf.length (cfg.write p.zw data).2.1.length)
        ((cfg.outputs (cfg.write p.zw data).1 blocks).map List.length) + _
      have hleft : (p.write cfg data).resume.buf.length =
          leftOver cfg.chunkWriteSize p.buf.length (cfg.write p.zw data).2.1.length := by
        show (p.write cfg data).buf.length = _
        rw [hbuf, List.length_drop, List.length_append]
        rfl
      rw [hleft, show (p.write cfg data).resume.zw = (cfg.write p.zw data).1 from hzw']
      rfl

/-- **When the last chunk announces the end.**  Either the writer has something to add when it is closed, or one
of the blocks keeps something back. -/
theorem final_chunk_iff (cfg : PipeConfig W) (hw : cfg.Works) (blocks : List (List UInt8)) :
    EndsWithEof cfg.chunkWriteSize (chunkerSends cfg (Pipe.new cfg).resume blocks) ↔
      (cfg.close (cfg.encode blocks).1).2.1 ≠ [] ∨
        HeldBack cfg.chunkWriteSize ((cfg.outputs cfg.lz4.new blocks).map List.length) := by
  obtain ⟨full, rest, hfull, hsends, hlength⟩ := chunkerSends_eq hw blocks (Pipe.new cfg).resume [] rfl rfl
  rw [hsends, endsWithEof_iff cfg.chunk_pos hfull, ← (heldBack_iff cfg.chunk_pos _).2.2, ← List.length_pos_iff,
    ← List.length_pos_iff, hlength]
  show 0 < List.foldl _ 0 ((cfg.outputs cfg.lz4.new blocks).map List.length) + _ ↔ _
  rw [List.nil_append]
  omega

/-- A block of five bytes, for chunks of four. -/
theorem final_chunk_iff_five :
    EndsWithEof 4 (chunkerSends plainConfig (Pipe.new plainConfig).resume [[1, 2, 3, 4, 5]]) :=
  (final_chunk_iff plainConfig (PipeConfig.works_of_plain rfl) [[1, 2, 3, 4, 5]]).mpr
    (Or.inr (Or.inl (by decide)))

theorem not_endsWithEof_of_err {k : ℕ} {l : List MemFileData} (h : ∀ x ∈ l, x.err = none) : ¬ EndsWithEof k l := by
  rintro ⟨init, last, rfl, herr, -, -⟩
  rw [h last (List.mem_append_right init (List.mem_singleton_self last))] at herr
  cases herr

/-- **No chunk announces the end.**  A block of just one chunk; and two chunks of which the second is kept back,
until a block without data comes. -/
theorem final_chunk_silent :
    (chunkerSends plainConfig (Pipe.new plainConfig).resume [[1, 2, 3, 4]] = [⟨[1, 2, 3, 4], none⟩] ∧
      ¬ EndsWithEof 4 (chunkerSends plainConfig (Pipe.new plainConfig).resume [[1, 2, 3, 4]])) ∧
    chunkerSends plainConfig (Pipe.new plainConfig).resume [[1, 2, 3, 4, 5, 6, 7, 8], []] =
        [⟨[1, 2, 3, 4], none⟩, ⟨[5, 6, 7, 8], none⟩] ∧
      ¬ EndsWithEof 4 (chunkerSends plainConfig (Pipe.new plainConfig).resume [[1, 2, 3, 4, 5, 6, 7, 8], []]) := by
  refine ⟨⟨by decide, not_endsWithEof_of_err ?_⟩, by decide, not_endsWithEof_of_err ?_⟩
  · decide
  · decide

end Zs3Server.Gateway.ChunkPipe
