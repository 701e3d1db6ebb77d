import Zs3Server.Gateway.MultipartClean

/-!
# The multipart pipeline delivers every part

In a clean run of an upload of the parts `1, …, n`, whatever the order in which the parts arrive and
however the calls, the two goroutines and the SDK are interleaved, the SDK comes to `io.EOF`, and by
then it has read the contents of the parts in order, in whole chunks.

* `CleanInv.enabled` — as long as the SDK is not at `io.EOF`, some party can take a step;
* `work`, `CleanInv.work_lt` — every step lowers a lexicographic measure of the work left;
* `clean_inevitable` — so the SDK comes to `io.EOF` in every maximal run;
* `CleanInv.eof` — what it has read then;
* `multipart_pipeline_lossless` — the pipeline is lossless and ordered.
-/

namespace Zs3Server.Gateway.Multipart

open Lib.ByteString Lib.StepSystem Lib.Slots
open Gateway.ChunkPipe

variable {W : Type} {md5Hex : List UInt8 → GoString} {cfg : PipeConfig W} {ready : PutPc → Bool} {n : ℕ}
  {content : ℤ → List UInt8} {list : List CompletePart} {s s' : Upload W}

/-! ### The parts of the calls -/

theorem pushedPart_part {call : Call} {p : ℤ} (h : call.pushedPart = some p) :
    call.part.map Prod.fst = some p := by
  cases call with
  | put q c pc =>
    simp only [Call.pushedPart, Option.ite_none_right_eq_some] at h
    exact h.2
  | complete | abort => exact absurd h (by simp [Call.pushedPart])

theorem parts_fst_eq (s : Upload W) :
    s.parts.map Prod.fst = s.calls.filterMap fun call => call.part.map Prod.fst :=
  List.map_filterMap

theorem pushedParts_sublist (s : Upload W) : s.pushedParts.Sublist (s.parts.map Prod.fst) := by
  rw [parts_fst_eq]
  exact filterMap_sublist (fun _ _ => pushedPart_part) s.calls

/-- Once the complete has arrived, the parts pushed are `1, …, n`. -/
theorem CleanInv.pushed_all (h : CleanInv cfg n content list s) (hc : s.Completing) (p : ℤ) :
    p ∈ s.pushedParts ↔ 1 ≤ p ∧ p ≤ n := by
  rw [← mem_firstParts]
  constructor
  · intro hp
    obtain ⟨⟨q, c⟩, hmem, rfl⟩ := List.mem_map.mp ((pushedParts_sublist s).subset hp)
    exact (h.client.parts q c hmem).1
  · intro hp
    have hmem := h.client.all hc p hp
    obtain ⟨⟨q, c⟩, hqc, rfl⟩ := List.mem_map.mp hmem
    obtain ⟨call, hcall, hpart⟩ := List.mem_filterMap.mp hqc
    cases call with
    | put q' c' pc =>
      obtain ⟨rfl, rfl⟩ : q' = q ∧ c' = c := by simpa [Call.part] using hpart
      refine List.mem_filterMap.mpr ⟨_, hcall, ?_⟩
      simp [Call.pushedPart, h.flow.calls.pushed hc _ _ pc hcall]
    | complete | abort => exact absurd hpart (by simp [Call.part])

/-- After `Done` the queue does not wait. -/
theorem CleanInv.not_waits (h : CleanInv cfg n content list s) (hn : 1 ≤ n)
    (hd : s.seqPQ.done = true) : s.seqPQ.popupWaits = false := by
  obtain ⟨m, hm, -⟩ := h.ordered
  exact hm.queue.not_waits hn (h.pushed_all (h.flow.calls.done hd))
    (h.client.distinct.sublist (pushedParts_sublist s)) hd

/-! ### Some party can take a step -/

/-- A step of a clean run is enabled. -/
def CanStep (md5Hex : List UInt8 → GoString) (cfg : PipeConfig W) (ready : PutPc → Bool) (n : ℕ)
    (content : ℤ → List UInt8) (list : List CompletePart) (s : Upload W) : Prop :=
  ∃ a s', CleanStep cfg ready n content list s a ∧ uploadStep md5Hex cfg s a = some s'

theorem CleanInv.canStep {a : UploadAct} (h : CleanInv cfg n content list s)
    (hok : CleanStep cfg ready n content list s a) (ht : UploadTrans md5Hex cfg s a s') :
    CanStep md5Hex cfg ready n content list s :=
  ⟨a, s', hok, ht.step h.party.no_panic⟩

/-- A put goes on until it has returned success. -/
theorem CleanInv.put_enabled {i : ℕ} {p : ℤ} {c : List UInt8} {pc : PutPc}
    (h : CleanInv cfg n content list s) (hi : s.calls[i]? = some (.put p c pc))
    (hpc : ∀ info, pc ≠ .returned (.ok info)) : CanStep md5Hex cfg ready n content list s := by
  have hok : CleanStep cfg ready n content list s (.call i .step) := by simp [CleanStep]
  cases pc with
  | create => exact h.canStep hok (.put i _ p c _ _ _ hi (.create h.party.present))
  | lookup => exact h.canStep hok (.put i _ p c _ _ _ hi (.lookup h.flow.calls.in_map))
  | copy w =>
    have hw := ((h.flow.content h.client.distinct).files i p c (.copy w) w hi rfl).1
    rcases Nat.lt_or_ge w c.length with hlt | hge
    · exact h.canStep (a := .call i (.copy 1)) (by simp [CleanStep])
        (.put i _ p c _ _ _ hi (.copy w 1 hlt (by omega)))
    · obtain rfl : w = c.length := by omega
      exact h.canStep hok (.put i _ p c _ _ _ hi .copyEnd)
  | push => exact h.canStep hok (.put i _ p c _ _ _ hi .push)
  | saveETag => exact h.canStep hok (.put i _ p c _ _ _ hi (.saveETag h.party.present))
  | updateSize => exact h.canStep hok (.put i _ p c _ _ _ hi .updateSize)
  | returned res =>
    cases res with
    | ok info => exact absurd rfl (hpc info)
    | error err =>
      exact absurd (h.client.puts p c _ (List.mem_of_getElem? hi)) (by simp [PutPc.healthy])

section Enabled

variable (hsuccess : ∀ info, ready (.returned (.ok info)) = true)
include hsuccess

/-- While the queue waits, some call goes on or the next one arrives. -/
theorem CleanInv.client_enabled (h : CleanInv cfg n content list s) (hn : 1 ≤ n)
    (hwaits : s.seqPQ.popupWaits = true) : CanStep md5Hex cfg ready n content list s := by
  by_cases hall : s.Ready ready
  · have hnot : ¬ s.Completing := by
      rintro ⟨parts, pc, hmem⟩
      obtain ⟨p, c, q, hcall, -⟩ := hall _ hmem
      exact absurd hcall (by simp)
    by_cases hparts : ∀ p ∈ firstParts n, p ∈ s.parts.map Prod.fst
    · exact h.canStep (a := .begin (.complete list)) ⟨rfl, hall, hparts⟩ (.begin _)
    · simp only [not_forall] at hparts
      obtain ⟨p, hp, hnew⟩ := hparts
      exact h.canStep (a := .begin (.put p (content p))) ⟨hnot, hp, rfl, hnew⟩ (.begin _)
  · simp only [Upload.Ready, not_forall] at hall
    obtain ⟨call, hmem, hnone⟩ := hall
    obtain ⟨i, hi⟩ := List.mem_iff_getElem?.mp hmem
    cases call with
    | put p c pc =>
      refine h.put_enabled hi fun info heq => hnone ⟨p, c, pc, rfl, ?_⟩
      rw [heq]
      exact hsuccess info
    | complete parts pc =>
      obtain ⟨-, hpc⟩ := h.client.completes parts pc hmem
      have hok : CleanStep cfg ready n content list s (.call i .step) := by simp [CleanStep]
      rcases hpc with rfl | rfl | ⟨-, hd⟩
      · exact h.canStep hok (.complete i _ parts _ _ _ hi (.lookup h.flow.calls.in_map))
      · exact h.canStep hok (.complete i _ parts _ _ _ hi .setDone)
      · exact absurd ((h.not_waits hn hd).symm.trans hwaits) (by simp)
    | abort pc => exact absurd hmem (h.flow.calls.no_abort pc)

/-- While `dataC` is empty and open, the part reader goes on, unless the queue waits for a call. -/
theorem CleanInv.reader_enabled (h : CleanInv cfg n content list s) (hn : 1 ≤ n)
    (hdata : s.pipe.dataC = []) (hopen : s.pipe.dataClosed = false) :
    CanStep md5Hex cfg ready n content list s := by
  obtain ⟨hhealthy, hdone⟩ := h.party.reader
  have hok : CleanStep cfg ready n content list s (.reader .step) := by simp [CleanStep]
  cases hpc : s.reader with
  | select =>
    exact h.canStep hok (.reader _ _ (.goPopup hpc h.party.token h.flow.calls.open_cancel))
  | popup =>
    cases hwaits : s.seqPQ.popupWaits with
    | true => exact h.client_enabled hsuccess hn hwaits
    | false =>
      obtain ⟨⟨v, pq⟩, hpop⟩ := popup_isSome_of_not_waits hwaits
      by_cases hv : v = -1
      · subst hv
        exact h.canStep hok (.reader _ _ (.popupEnd pq hpc hpop))
      · exact h.canStep hok (.reader _ _ (.popupPart v pq hpc hpop hv))
  | openFile p =>
    obtain ⟨d, hd⟩ := Option.ne_none_iff_exists'.mp (h.file hpc)
    exact h.canStep hok (.reader _ _ (.openFile p d hpc hd))
  | fetch p opened => exact h.canStep hok (.reader _ _ (.fetch p opened hpc))
  | sendData p data =>
    exact h.canStep hok (.reader _ _ (.sendData p data hpc (by simp [hdata, dataCap])))
  | remove p => exact h.canStep hok (.reader _ _ (.remove p hpc))
  | closeData => exact h.canStep hok (.reader _ _ (.closeData hpc))
  | done => exact absurd (hopen.symm.trans (hdone hpc)) (by simp)
  | idle | sendCancel | sendErr | cleanup =>
    rw [hpc] at hhealthy
    exact absurd hhealthy (by simp [ReaderPc.healthy])

/-- **Some party can take a step** as long as the SDK is not at `io.EOF`.  If nothing is to be read
the chunking goroutine goes on, and if it waits for `dataC` the part reader does. -/
theorem CleanInv.enabled (h : CleanInv cfg n content list s) (hn : 1 ≤ n) (heof : ¬ s.AtEof) :
    CanStep md5Hex cfg ready n content list s := by
  have hread : ∀ pipe, s.pipe.read cfg.chunkWriteSize = some pipe →
      CanStep md5Hex cfg ready n content list s := fun pipe hpipe =>
    h.canStep (a := .sdk (.read cfg.chunkWriteSize)) ⟨le_rfl, heof⟩
      (.sdk _ _ (.read _ pipe h.party.sdk hpipe))
  have hrecv : ∀ pipe, s.pipe.receive cfg = some pipe → CanStep md5Hex cfg ready n content list s :=
    fun pipe hpipe =>
      h.canStep (a := .chunker .receive) (by simp [CleanStep]) (.chunker _ _ (.receive pipe hpipe))
  have hsend : ∀ pipe, s.pipe.sendChunk = some pipe → CanStep md5Hex cfg ready n content list s :=
    fun pipe hpipe => h.canStep (a := .chunker .step) (by simp [CleanStep])
      (.chunker _ _ (.sendChunk pipe _ hpipe rfl))
  cases hmem : s.pipe.memC with
  | cons d rest => exact hread _ (by rw [Pipe.read, hmem])
  | nil =>
    have hroom : s.pipe.memC.length < memFileCap := by simp [hmem, memFileCap]
    cases hclosed : s.pipe.memClosed with
    | true => exact hread _ (by rw [Pipe.read, hmem]; exact if_pos hclosed)
    | false =>
      obtain ⟨hhealthy, hdone⟩ := h.party.chunker
      cases hpc : s.pipe.chunker with
      | select =>
        cases hdata : s.pipe.dataC with
        | cons d rest => exact hrecv _ (by rw [Pipe.receive, hpc, hdata])
        | nil =>
          cases hdc : s.pipe.dataClosed with
          | true => exact hrecv _ (by rw [Pipe.receive, hpc, hdata]; exact if_pos hdc)
          | false => exact h.reader_enabled hsuccess hn hdata hdc
      | sending chunks =>
        cases chunks with
        | nil => exact hsend _ (by rw [Pipe.sendChunk, hpc])
        | cons c cs => exact hsend _ (by rw [Pipe.sendChunk, hpc]; exact if_pos hroom)
      | flushing chunks =>
        cases chunks with
        | nil => exact hsend _ (by rw [Pipe.sendChunk, hpc])
        | cons c cs => exact hsend _ (by rw [Pipe.sendChunk, hpc]; exact if_pos hroom)
      | done => exact absurd (hclosed.symm.trans (hdone hpc)) (by simp)
      | idle | sendCancel | sendErr | cleanup =>
        rw [hpc] at hhealthy
        exact absurd hhealthy (by simp [ChunkerPc.healthy])

end Enabled

/-! ### Every step is progress -/

/-- The stages a put has before it, a byte copied counting as one. -/
def PutPc.rank (content : List UInt8) : PutPc → ℕ
  | .create => content.length + 6
  | .lookup => content.length + 5
  | .copy written => content.length - written + 4
  | .push => 3
  | .saveETag => 2
  | .updateSize => 1
  | .returned _ => 0

/-- The stages a complete has before it. -/
def CompletePc.rank : CompletePc → ℕ
  | .lookup => 5
  | .setDone => 4
  | .waitError => 3
  | .construct => 2
  | .cleanup _ => 1
  | .returned _ => 0

/-- The stages a call has before it. -/
def Call.rank : Call → ℕ
  | .put _ content pc => pc.rank content
  | .complete _ pc => pc.rank
  | .abort _ => 0

/-- The steps the part reader has before it until it asks the queue again. -/
def ReaderPc.rank : ReaderPc → ℕ
  | .openFile _ => 7
  | .fetch _ _ => 6
  | .sendData _ _ => 5
  | .remove _ => 4
  | .select => 3
  | .popup => 2
  | .closeData => 1
  | _ => 0

/-- **The work left**: the calls to come, the stages of the calls, the parts to fetch, the blocks to
take, the chunks to send, the chunks to read. -/
def work (n : ℕ) (s : Upload W) : ℕ ×ₗ ℕ ×ₗ ℕ ×ₗ ℕ ×ₗ ℕ ×ₗ ℕ :=
  toLex (n + 1 - s.calls.length,
    toLex ((s.calls.map Call.rank).sum,
      toLex (8 * (n + 1 - s.seqPQ.next).toNat + s.reader.rank,
        toLex (s.pipe.intake, toLex (s.pipe.chunker.rank, s.pipe.unread)))))

theorem PutTrans.rank_lt {p : ℤ} {c : List UInt8} {pc pc' : PutPc} {ev : CallEvent}
    (ht : PutTrans md5Hex s p c pc ev s' pc') : pc'.rank c < pc.rank c := by
  cases ht with
  | copy written k hlt hk =>
    simp only [PutPc.rank]
    omega
  | lookup | copyEnd | createFault | createMissing | create | lookupNone | copyFault | push | saveETag
  | saveETagMissing | saveETagFault | updateSize => simp [PutPc.rank]

theorem CompleteTrans.rank_lt {pc pc' : CompletePc} {ev : CallEvent}
    (ht : CompleteTrans s pc ev s' pc') : pc'.rank < pc.rank := by
  cases ht <;> simp [CompletePc.rank]

/-- Before the complete arrives there are as many calls as parts. -/
theorem CleanInv.calls_length (h : CleanInv cfg n content list s) (hnot : ¬ s.Completing) :
    s.calls.length = (s.parts.map Prod.fst).length := by
  rw [List.length_map, Upload.parts, eq_comm, List.filterMap_length_eq_length]
  intro call hmem
  cases call with
  | put p c pc => rfl
  | complete parts pc => exact absurd ⟨parts, pc, hmem⟩ hnot
  | abort pc => exact absurd hmem (h.flow.calls.no_abort pc)

theorem firstParts_length (m : ℕ) : (firstParts m).length = m := by simp [firstParts]

/-- At most `n` parts and one complete arrive. -/
theorem CleanInv.begin_lt {request : Request} (h : CleanInv cfg n content list s)
    (hok : CleanStep cfg ready n content list s (.begin request)) : s.calls.length < n + 1 := by
  have hsub : s.parts.map Prod.fst ⊆ firstParts n := by
    intro p hp
    obtain ⟨⟨q, c⟩, hmem, rfl⟩ := List.mem_map.mp hp
    exact (h.client.parts q c hmem).1
  have hle : (s.parts.map Prod.fst).length ≤ n := by
    have := (h.client.distinct.subperm hsub).length_le
    rwa [firstParts_length] at this
  cases request with
  | abort => exact hok.elim
  | put p c =>
    rw [h.calls_length hok.1]
    omega
  | complete parts =>
    have hnot : ¬ s.Completing := by
      rintro ⟨parts', pc, hmem⟩
      obtain ⟨p, c, q, hcall, -⟩ := hok.2.1 _ hmem
      exact absurd hcall (by simp)
    rw [h.calls_length hnot]
    omega

/-- The part reader gets on with its part, or takes the next of the `n` parts. -/
theorem CleanInv.reader_lt {ev : ReaderEvent} (h : CleanInv cfg n content list s)
    (hok : ev ≠ .fault) (ht : ReaderTrans s ev s') :
    8 * (n + 1 - s'.seqPQ.next).toNat + s'.reader.rank <
      8 * (n + 1 - s.seqPQ.next).toNat + s.reader.rank := by
  have hhealthy := h.party.reader.1
  cases ht with
  | takeToken hpc htoken => exact absurd (h.party.token.symm.trans htoken) (by simp)
  | seeClosed hpc htoken hclosed =>
    exact absurd (h.flow.calls.open_cancel.symm.trans hclosed) (by simp)
  | openMissing p hpc hfile => exact absurd hfile (h.file hpc)
  | openFault | fetchFault => exact absurd rfl hok
  | sendCancel opened hpc | sendCancelPanic opened hpc | cleanup hpc =>
    rw [hpc] at hhealthy
    exact absurd hhealthy (by simp [ReaderPc.healthy])
  | popupEnd pq hpc hpop =>
    obtain ⟨m, hm, -⟩ := h.ordered
    rcases hm.queue.popup hpop with ⟨-, rfl, -⟩ | ⟨hv, -⟩
    · simp [hpc, ReaderPc.rank]
    · omega
  | popupPart p pq hpc hpop hne =>
    obtain ⟨m, hm, -⟩ := h.ordered
    rcases hm.queue.popup hpop with ⟨rfl, -⟩ | ⟨rfl, hq, -⟩
    · exact absurd rfl hne
    · -- the part is one of the `n`
      have hmem : ((m : ℤ) + 1) ∈ (s.pushedParts : Multiset ℤ) := by
        rw [hq.entries_eq, Multiset.mem_add]
        exact Or.inr (Multiset.mem_coe.mpr (mem_firstParts.mpr ⟨by omega, by push_cast; omega⟩))
      obtain ⟨⟨q, c⟩, hqc, hq'⟩ :=
        List.mem_map.mp ((pushedParts_sublist s).subset (Multiset.mem_coe.mp hmem))
      have hle := (mem_firstParts.mp (h.client.parts q c hqc).1).2
      have hnext := hm.queue.next_eq
      have hnext' := hq.next_eq
      simp only [hpc, ReaderPc.rank] at hq' ⊢
      push_cast at hnext'
      omega
  | goPopup hpc | closeData hpc | openFile p d hpc | fetch p d hpc | sendData p d hpc
  | remove p hpc => simp [hpc, ReaderPc.rank]

/-- **Every step lowers the work left.** -/
theorem CleanInv.work_lt {a : UploadAct} (h : CleanInv cfg n content list s) (hw : cfg.Works)
    (hok : CleanStep cfg ready n content list s a) (ht : UploadTrans md5Hex cfg s a s') :
    work n s' < work n s := by
  have hmap := h.flow.calls.in_map
  have hfacts := h.flow.pipe h.party.clean
  simp only [work, Prod.Lex.toLex_lt_toLex]
  cases ht with
  | new hnew => exact absurd (hnew.symm.trans hmap) (by simp)
  | newFault hnew => exact absurd (hnew.symm.trans hmap) (by simp)
  | begin request =>
    left
    have := h.begin_lt hok
    rw [List.length_append, List.length_singleton]
    omega
  | put i ev p c pc pc' t hcall ht =>
    exact Or.inr ⟨by rw [List.length_set], Or.inl (sum_map_set_lt hcall ht.rank_lt)⟩
  | complete i ev parts pc pc' t hcall ht =>
    exact Or.inr ⟨by rw [List.length_set], Or.inl (sum_map_set_lt hcall ht.rank_lt)⟩
  | abort i ev pc pc' t hcall ht =>
    exact absurd (List.mem_of_getElem? hcall) (h.flow.calls.no_abort pc)
  | reader ev t ht =>
    have hcalls := ht.callsFrame.calls
    exact Or.inr ⟨by rw [hcalls], Or.inr ⟨by rw [hcalls], Or.inl (h.reader_lt hok ht)⟩⟩
  | chunker ev t ht =>
    have hchunk := h.party.chunker.1
    cases ht with
    | receive pipe hrecv =>
      exact Or.inr ⟨rfl, Or.inr ⟨rfl, Or.inr ⟨rfl, Or.inl (hfacts.receive_lt hw hrecv)⟩⟩⟩
    | sendChunk pipe size hsend hsize =>
      obtain ⟨hintake, hrank⟩ := sendChunk_lt hsend
      exact Or.inr ⟨rfl, Or.inr ⟨rfl, Or.inr ⟨rfl, Or.inr ⟨hintake, Or.inl hrank⟩⟩⟩⟩
    | takeToken hpc htoken => exact absurd (h.party.token.symm.trans htoken) (by simp)
    | seeClosed hpc htoken hclosed =>
      exact absurd (h.flow.calls.open_cancel.symm.trans hclosed) (by simp)
    | timeout hpc => exact absurd rfl hok
    | sendCancel hpc | sendCancelPanic hpc | cleanup hpc =>
      rw [hpc] at hchunk
      exact absurd hchunk (by simp [ChunkerPc.healthy])
  | sdk ev t ht =>
    cases ht with
    | read len pipe hsdk hread =>
      obtain ⟨hintake, hpc, hunread⟩ := read_lt hread hok.2
      exact Or.inr ⟨rfl, Or.inr ⟨rfl, Or.inr ⟨rfl, Or.inr ⟨hintake, Or.inr ⟨by rw [hpc], hunread⟩⟩⟩⟩⟩
    | readErrReader hsdk hpc =>
      have hhealthy := h.party.reader.1
      rw [hpc] at hhealthy
      exact absurd hhealthy (by simp [ReaderPc.healthy])
    | readErrChunker text hsdk hpc =>
      have hchunk := h.party.chunker.1
      rw [hpc] at hchunk
      exact absurd hchunk (by simp [ChunkerPc.healthy])
    | finish | finishErr => exact hok.elim
    | cleanup err hsdk => exact absurd (h.party.sdk.symm.trans hsdk) (by simp)
    | deliver res hsdk => exact absurd (h.party.sdk.symm.trans hsdk) (by simp)

/-! ### The pipeline delivers -/

/-- The SDK comes to `io.EOF` in every maximal clean run. -/
theorem clean_inevitable (hw : cfg.Works) (hready : ∀ pc, ready pc = true → pc.pushed = true)
    (hsuccess : ∀ info, ready (.returned (.ok info)) = true) (hn : 1 ≤ n) :
    Inevitable (uploadStep md5Hex cfg) (CleanStep cfg ready n content list) Upload.AtEof
      (Upload.fresh cfg) :=
  inevitable_of_measure (I := CleanInv cfg n content list) wellFounded_lt
    (fun _ h heof => h.enabled hsuccess hn heof)
    (fun _ _ _ h _ hok hst =>
      ⟨h.step hw hready hok hst, h.work_lt hw hok (uploadStep_trans hst).2⟩)
    _ (cleanInv_fresh cfg n content list)

/-- What the SDK has read at `io.EOF`: the output for the `n` parts, in order. -/
theorem CleanInv.eof (h : CleanInv cfg n content list s) (heof : s.AtEof) :
    (s.pipe.reads.map MemFileData.buf).flatten = cfg.output ((firstParts n).map content) := by
  obtain ⟨m, -, hfst, hperm, hc, hout⟩ :=
    h.flow.eof ((readToEof_iff _).mpr ⟨heof, h.party.clean⟩)
  -- the parts pushed are `1, …, m` and also `1, …, n`
  have hmem : ∀ p, p ∈ firstParts m ↔ p ∈ firstParts n := by
    intro p
    rw [← hperm.mem_iff, h.pushed_all hc, mem_firstParts]
  have hmn : m = n := by
    have hlen := ((List.perm_ext_iff_of_nodup (firstParts_nodup m) (firstParts_nodup n)).mpr
      hmem).length_eq
    rwa [firstParts_length, firstParts_length] at hlen
  rw [hout, ← hmn, ← hfst, List.map_map]
  congr 1
  refine List.map_congr_left fun x hx => ?_
  have hup := (h.flow.content h.client.distinct).fetched x.1 x.2 hx
  exact (h.client.parts x.1 x.2 hup.mem_parts).2

/-- **The multipart pipeline is lossless and ordered.**  For an upload without compression of the
parts `1, …, n` in any order, and any interleaving of the calls, the part reader, the chunking goroutine
and the SDK's reads: what the SDK has read when it gets `io.EOF` is the concatenation of the contents;
every read before the last data-bearing one is a whole chunk; and every maximal run comes to the
`io.EOF`. -/
theorem multipart_pipeline_lossless (md5Hex : List UInt8 → GoString) (cfg : PipeConfig W)
    (hplain : cfg.toCompress = false) (n : ℕ) (hn : 1 ≤ n) (content : ℤ → List UInt8)
    (list : List CompletePart) :
    (∀ s, Reaches (uploadStep md5Hex cfg) (CleanStep cfg PutPc.pushed n content list)
        (Upload.fresh cfg) s →
      (s.AtEof →
        (s.pipe.reads.map MemFileData.buf).flatten = ((firstParts n).map content).flatten) ∧
      ∀ pre d post, s.pipe.reads = pre ++ d :: post → (∃ x ∈ post, x.buf ≠ []) →
        d.buf.length = cfg.chunkWriteSize) ∧
    Inevitable (uploadStep md5Hex cfg) (CleanStep cfg PutPc.pushed n content list) Upload.AtEof
      (Upload.fresh cfg) := by
  have hw := PipeConfig.works_of_plain hplain
  refine ⟨fun s hs => ?_, clean_inevitable hw (fun _ => id) (fun _ => rfl) hn⟩
  have hinv := reaches_cleanInv hw (fun _ => id) hs
  refine ⟨fun heof => ?_, fun pre d post hreads hlater => ?_⟩
  · rw [hinv.eof heof, PipeConfig.output_of_plain hplain]
  · exact (hinv.flow.pipe hinv.party.clean).reads_full hreads hlater

/-- Two parts that arrive in some order. -/
theorem multipart_pipeline_two_parts :
    ∃ s, Reaches (uploadStep (fun _ => []) plainConfig)
        (CleanStep plainConfig PutPc.pushed 2 (fun p => if p = 1 then [1, 2, 3] else [4, 5]) [])
        (Upload.fresh plainConfig) s ∧
      s.AtEof ∧ (s.pipe.reads.map MemFileData.buf).flatten = [1, 2, 3, 4, 5] := by
  obtain ⟨hsafe, hlive⟩ := multipart_pipeline_lossless (fun _ => []) plainConfig rfl 2 (by decide)
    (fun p => if p = 1 then [1, 2, 3] else [4, 5]) []
  obtain ⟨s, hreach, heof⟩ := hlive.reaches
  exact ⟨s, hreach, heof, (hsafe s hreach).1 heof⟩

end Zs3Server.Gateway.Multipart
