import EthereumJS.E2store.Reading

/-! # The uncompressing stream

`uncompress-stream.ts` and `decompressData` of `snappy.ts`. The stream keeps what does not make up
a frame, and nothing looks at it when the input ends. The decompression of blocks is a parameter,
and the checksum of a frame is skipped.
-/

namespace EthereumJS.E2store

open LittleEndian

inductive FrameType
  | identifier
  | compressed
  | uncompressed
  | padding
  deriving DecidableEq

inductive StreamError
  | unknownFrameType
  | noIdentifier
  | badIdentifier
  | block
  deriving DecidableEq

/-- The chunks of the buffer are kept joined, as only `concatBuffers` reads them, and so are the
chunks that were pushed. -/
structure UncompressStream where
  foundIdentifier : Bool
  buffer : Bytes
  pushed : Bytes
  deriving DecidableEq

namespace UncompressStream

def IDENTIFIER : Bytes := [0x73, 0x4e, 0x61, 0x50, 0x70, 0x59]

def create : UncompressStream := ⟨false, [], []⟩

def frameSize (buffer : Bytes) (offset : Nat) : Nat := leNumber ((buffer.drop offset).take 3)

def getType (value : UInt8) : Except StreamError FrameType :=
  if value = 0xff then .ok .identifier
  else if value = 0x00 then .ok .compressed
  else if value = 0x01 then .ok .uncompressed
  else if value = 0xfe then .ok .padding
  else .error .unknownFrameType

variable (uncompress : Bytes → Option Bytes)

/-- One frame without its header. -/
def readFrame (stream : UncompressStream) (type : FrameType) (data : Bytes) :
    Except StreamError UncompressStream :=
  if !stream.foundIdentifier ∧ type ≠ .identifier then .error .noIdentifier
  else
    match type with
    | .identifier =>
      if data = IDENTIFIER then .ok { stream with foundIdentifier := true }
      else .error .badIdentifier
    | .compressed =>
      match uncompress (data.drop 4) with
      | some raw => .ok { stream with pushed := stream.pushed ++ raw }
      | none => .error .block
    | .uncompressed => .ok { stream with pushed := stream.pushed ++ data.drop 4 }
    | .padding => .ok stream

/-- The first frame of the buffer with its type, its data and what is behind it. -/
def takeFrame (buffer : Bytes) : Except StreamError (Option (FrameType × Bytes × Bytes)) :=
  if buffer.length < 4 then .ok none
  else
    let size := frameSize buffer 1
    match getType (buffer.getD 0 0) with
    | .error e => .error e
    | .ok type =>
      if buffer.length - 4 < size then .ok none
      else .ok (some (type, (buffer.drop 4).take size, buffer.drop (4 + size)))

/-- `_parse`, on as many frames at most as the buffer has bytes. -/
def parseFrames : Nat → UncompressStream → Except StreamError UncompressStream
  | 0, stream => .ok stream
  | fuel + 1, stream =>
    match takeFrame stream.buffer with
    | .error e => .error e
    | .ok none => .ok stream
    | .ok (some (type, data, rest)) =>
      match readFrame uncompress { stream with buffer := rest } type data with
      | .error e => .error e
      | .ok stream => parseFrames fuel stream

def parse (stream : UncompressStream) : Except StreamError UncompressStream :=
  parseFrames uncompress stream.buffer.length stream

/-- `this.buffer.push(chunk)`. -/
def withChunk (stream : UncompressStream) (chunk : Bytes) : UncompressStream :=
  { stream with buffer := stream.buffer ++ chunk }

def transform (stream : UncompressStream) (chunk : Bytes) : Except StreamError UncompressStream :=
  parse uncompress (stream.withChunk chunk)

/-- The output for the chunks of an input. There is no `_flush`. -/
def output (chunks : List Bytes) : Except StreamError Bytes :=
  (chunks.foldlM (transform uncompress) create).map pushed

end UncompressStream

/-- `decompressData` writes its data as one chunk. It does not listen to errors, so that one ends
the process. -/
def decompressData (uncompress : Bytes → Option Bytes) (compressedData : Bytes) :
    Except StreamError Bytes :=
  UncompressStream.output uncompress [compressedData]

namespace UncompressStream

variable {uncompress : Bytes → Option Bytes} {stream next : UncompressStream} {type : FrameType}
  {data front rest body : Bytes} {fuel : Nat}

section Parse

theorem readFrame_buffer (h : readFrame uncompress stream type data = .ok next) :
    next.buffer = stream.buffer := by
  unfold readFrame at h
  split at h
  · cases h
  · split at h
    · split at h
      · cases h
        rfl
      · cases h
    · split at h
      · cases h
        rfl
      · cases h
    · cases h
      rfl
    · cases h
      rfl

/-- A frame has a header of four bytes. -/
theorem takeFrame_length (h : takeFrame front = .ok (some (type, data, rest))) :
    4 ≤ front.length ∧ rest.length + 4 ≤ front.length := by
  unfold takeFrame at h
  split at h
  · cases h
  · dsimp only at h
    split at h
    · cases h
    · split at h
      · cases h
      · cases h
        rw [List.length_drop]
        omega

/-- More bytes behind a frame leave it as it is. -/
theorem takeFrame_append (chunk : Bytes) (h : takeFrame front ≠ .ok none) :
    takeFrame (front ++ chunk) = (takeFrame front).map fun frame =>
      frame.map fun frame => (frame.1, frame.2.1, frame.2.2 ++ chunk) := by
  unfold takeFrame at h ⊢
  by_cases hlong : front.length < 4
  · rw [if_pos hlong] at h
    exact absurd rfl h
  have htype : (front ++ chunk).getD 0 0 = front.getD 0 0 := by
    rw [List.getD_eq_getElem?_getD, List.getD_eq_getElem?_getD,
      List.getElem?_append_left (by omega)]
  have hsize : frameSize (front ++ chunk) 1 = frameSize front 1 := by
    rw [frameSize, frameSize, List.drop_append_of_le_length (by omega),
      List.take_append_of_le_length (by rw [List.length_drop]; omega)]
  have happend : (front ++ chunk).length = front.length + chunk.length := List.length_append
  rw [if_neg hlong] at h ⊢
  rw [if_neg (by omega), htype, hsize]
  dsimp only at h ⊢
  cases htype : getType (front.getD 0 0) with
  | error e => rfl
  | ok type =>
    rw [htype] at h
    dsimp only at h ⊢
    by_cases hshort : front.length - 4 < frameSize front 1
    · rw [if_pos hshort] at h
      exact absurd rfl h
    · rw [if_neg hshort, if_neg (by omega), List.drop_append_of_le_length (by omega),
        List.drop_append_of_le_length (by omega),
        List.take_append_of_le_length (by rw [List.length_drop]; omega)]
      rfl

theorem parseFrames_succ (uncompress : Bytes → Option Bytes) (fuel : Nat)
    (stream : UncompressStream) : parseFrames uncompress (fuel + 1) stream =
      match takeFrame stream.buffer with
      | .error e => .error e
      | .ok none => .ok stream
      | .ok (some (type, data, rest)) =>
        match readFrame uncompress { stream with buffer := rest } type data with
        | .error e => .error e
        | .ok stream => parseFrames uncompress fuel stream := rfl

theorem takeFrame_nil (h : front.length < 4) : takeFrame front = .ok none := if_pos h

/-- More rounds than bytes change nothing. -/
theorem parseFrames_more (h : stream.buffer.length ≤ fuel) (more : Nat) :
    parseFrames uncompress (fuel + more) stream = parseFrames uncompress fuel stream := by
  induction fuel generalizing stream with
  | zero =>
    cases more with
    | zero => rfl
    | succ more =>
      rw [Nat.zero_add, parseFrames_succ, takeFrame_nil (by omega)]
      rfl
  | succ fuel ih =>
    rw [Nat.add_right_comm, parseFrames_succ, parseFrames_succ]
    split
    · rfl
    · rfl
    · next type data rest hframe =>
      split
      · rfl
      · next next hread =>
        obtain ⟨-, hrest⟩ := takeFrame_length hframe
        refine ih ?_
        rw [readFrame_buffer hread]
        dsimp only
        omega

theorem parse_eq_parseFrames (h : stream.buffer.length ≤ fuel) :
    parse uncompress stream = parseFrames uncompress fuel stream := by
  obtain ⟨more, rfl⟩ := Nat.exists_eq_add_of_le h
  exact (parseFrames_more le_rfl more).symm

/-- `_parse` with its recursion. -/
theorem parse_eq (uncompress : Bytes → Option Bytes) (stream : UncompressStream) :
    parse uncompress stream =
      match takeFrame stream.buffer with
      | .error e => .error e
      | .ok none => .ok stream
      | .ok (some (type, data, rest)) =>
        match readFrame uncompress { stream with buffer := rest } type data with
        | .error e => .error e
        | .ok stream => parse uncompress stream := by
  rw [parse_eq_parseFrames (Nat.le_succ _), parseFrames_succ]
  split
  · rfl
  · rfl
  · next type data rest hframe =>
    split
    · rfl
    · next next hread =>
      obtain ⟨-, hrest⟩ := takeFrame_length hframe
      refine (parse_eq_parseFrames ?_).symm
      rw [readFrame_buffer hread]
      dsimp only
      omega

theorem parse_frame (h : takeFrame stream.buffer = .ok (some (type, data, rest)))
    (hread : readFrame uncompress { stream with buffer := rest } type data = .ok next) :
    parse uncompress stream = parse uncompress next := by
  rw [parse_eq, h]
  dsimp only
  rw [hread]

theorem parse_stop (h : takeFrame stream.buffer = .ok none) :
    parse uncompress stream = .ok stream := by
  rw [parse_eq, h]

theorem readFrame_withChunk (stream : UncompressStream) (chunk : Bytes) (type : FrameType)
    (data : Bytes) : readFrame uncompress (stream.withChunk chunk) type data =
      (readFrame uncompress stream type data).map fun next => next.withChunk chunk := by
  unfold readFrame
  change (if !stream.foundIdentifier ∧ type ≠ .identifier then _ else _) = _
  split
  · rfl
  · cases type with
    | identifier =>
      dsimp only
      split
      · rfl
      · rfl
    | compressed =>
      dsimp only
      cases uncompress (data.drop 4) with
      | none => rfl
      | some raw => rfl
    | uncompressed => rfl
    | padding => rfl

/-- It does not matter where the input is cut. -/
theorem parse_withChunk (stream : UncompressStream) (chunk : Bytes) :
    (parse uncompress stream >>= fun next => parse uncompress (next.withChunk chunk)) =
      parse uncompress (stream.withChunk chunk) := by
  generalize hn : stream.buffer.length = n
  induction n using Nat.strong_induction_on generalizing stream with
  | _ n ih =>
    have hbuffer : (stream.withChunk chunk).buffer = stream.buffer ++ chunk := rfl
    have happend : takeFrame stream.buffer ≠ .ok none → takeFrame (stream.withChunk chunk).buffer = _ :=
      takeFrame_append chunk
    cases hframe : takeFrame stream.buffer with
    | error e =>
      rw [hframe] at happend
      rw [parse_eq uncompress stream, hframe, parse_eq uncompress (stream.withChunk chunk),
        happend (by simp)]
      rfl
    | ok frame =>
      cases frame with
      | none =>
        rw [parse_stop hframe]
        rfl
      | some frame =>
        obtain ⟨type, data, rest⟩ := frame
        obtain ⟨-, hrest⟩ := takeFrame_length hframe
        rw [hframe] at happend
        have hlater : readFrame uncompress (withChunk { stream with buffer := rest } chunk) type
            data = _ := readFrame_withChunk { stream with buffer := rest } chunk type data
        rw [parse_eq uncompress stream, hframe, parse_eq uncompress (stream.withChunk chunk),
          happend (by simp)]
        change _ = match readFrame uncompress (withChunk { stream with buffer := rest } chunk) type
          data with
          | .error e => Except.error e
          | .ok stream => parse uncompress stream
        rw [hlater]
        dsimp only
        cases hread : readFrame uncompress { stream with buffer := rest } type data with
        | error e => rfl
        | ok next =>
          refine ih next.buffer.length ?_ next rfl
          rw [readFrame_buffer hread]
          dsimp only
          omega

theorem parse_stopped (h : parse uncompress stream = .ok next) :
    takeFrame next.buffer = .ok none := by
  generalize hn : stream.buffer.length = n
  induction n using Nat.strong_induction_on generalizing stream with
  | _ n ih =>
    rw [parse_eq] at h
    split at h
    · cases h
    · next hframe =>
      cases h
      exact hframe
    · next type data rest hframe =>
      split at h
      · cases h
      · next later hread =>
        obtain ⟨-, hrest⟩ := takeFrame_length hframe
        refine ih later.buffer.length ?_ h rfl
        rw [readFrame_buffer hread]
        dsimp only
        omega

/-- The chunks of an input are read like the whole of it. -/
theorem foldlM_transform (stream : UncompressStream) (hstop : takeFrame stream.buffer = .ok none)
    (chunks : List Bytes) :
    chunks.foldlM (transform uncompress) stream =
      parse uncompress (stream.withChunk chunks.flatten) := by
  induction chunks generalizing stream with
  | nil =>
    rw [List.flatten_nil, withChunk, List.append_nil]
    exact (parse_stop hstop).symm
  | cons chunk chunks ih =>
    have hboth : stream.withChunk (chunk :: chunks).flatten =
        (stream.withChunk chunk).withChunk chunks.flatten := by
      rw [withChunk, withChunk, withChunk, List.flatten_cons, List.append_assoc]
    rw [List.foldlM_cons, transform, hboth,
      ← parse_withChunk (stream.withChunk chunk) chunks.flatten]
    cases hparse : parse uncompress (stream.withChunk chunk) with
    | error e => rfl
    | ok next => exact ih next (parse_stopped hparse)

theorem output_eq (uncompress : Bytes → Option Bytes) (chunks : List Bytes) :
    output uncompress chunks = (parse uncompress ⟨false, chunks.flatten, []⟩).map pushed := by
  rw [output, foldlM_transform create (takeFrame_nil (by decide))]
  rfl

end Parse

section Frames

variable {snappy : Snappy} {block p q r : Bytes} {blocks : List Bytes} {kind : UInt8} {k : Nat}

/-- The blocks of the data are decompressed to what they were, and a checksum has four bytes. -/
structure Codec (snappy : Snappy) (uncompress : Bytes → Option Bytes) : Prop where
  roundTrip : ∀ block : Bytes, block.length ≤ UNCOMPRESSED_CHUNK_SIZE →
    uncompress (snappy.compress block) = some block
  checksum : ∀ block, (snappy.checksum block).length = 4

/-- The pieces that are compressed one by one. -/
def blocksOf (data : Bytes) : List Bytes :=
  (List.range ((data.length + UNCOMPRESSED_CHUNK_SIZE - 1) / UNCOMPRESSED_CHUNK_SIZE)).map fun i =>
    (data.drop (i * UNCOMPRESSED_CHUNK_SIZE)).take UNCOMPRESSED_CHUNK_SIZE

/-- The frames of a compressed stream. -/
def framesOf (snappy : Snappy) (data : Bytes) : List Bytes :=
  IDENTIFIER_FRAME :: (blocksOf data).map (chunkFrame snappy)

theorem flatten_framesOf (snappy : Snappy) (data : Bytes) :
    (framesOf snappy data).flatten = compressData snappy data := by
  rw [framesOf, List.flatten_cons, ← List.flatMap_def, blocksOf, List.flatMap_map, compressData]

theorem flatten_slices (size n : Nat) (data : Bytes) (h : data.length ≤ n * size) :
    ((List.range n).map fun i => (data.drop (i * size)).take size).flatten = data := by
  induction n generalizing data with
  | zero =>
    rw [Nat.zero_mul, Nat.le_zero, List.length_eq_zero_iff] at h
    rw [h]
    rfl
  | succ n ih =>
    rw [List.range_succ_eq_map, List.map_cons, List.map_map, List.flatten_cons, Nat.zero_mul,
      List.drop_zero]
    have hrest := ih (data.drop size) (by
      rw [List.length_drop, Nat.succ_mul] at *
      omega)
    have hslices : ((List.range n).map ((fun i => (data.drop (i * size)).take size) ∘ Nat.succ)) =
        (List.range n).map fun i => ((data.drop size).drop (i * size)).take size := by
      refine List.map_congr_left fun i _ => ?_
      rw [Function.comp_apply, List.drop_drop, Nat.succ_mul, Nat.add_comm]
    rw [hslices, hrest, List.take_append_drop]

theorem flatten_blocksOf (data : Bytes) : (blocksOf data).flatten = data := by
  refine flatten_slices UNCOMPRESSED_CHUNK_SIZE _ data ?_
  rw [UNCOMPRESSED_CHUNK_SIZE]
  omega

theorem mem_blocksOf (h : block ∈ blocksOf data) :
    block.length ≤ UNCOMPRESSED_CHUNK_SIZE ∧ block ≠ [] := by
  obtain ⟨i, hi, rfl⟩ := List.mem_map.mp h
  have hlt := List.mem_range.mp hi
  rw [UNCOMPRESSED_CHUNK_SIZE] at hlt ⊢
  constructor
  · exact List.length_take_le _ _
  · rw [← List.length_pos_iff, List.length_take, List.length_drop]
    omega

theorem takeFrame_encoded (hkind : getType kind = .ok type) (hbody : body.length < 2 ^ 24)
    (rest : Bytes) :
    takeFrame (kind :: leBytes 3 body.length ++ body ++ rest) = .ok (some (type, body, rest)) := by
  have hheader := length_leBytes 3 body.length
  have hsize : frameSize (kind :: leBytes 3 body.length ++ body ++ rest) 1 = body.length := by
    rw [frameSize, List.cons_append, List.cons_append, List.drop_succ_cons, List.drop_zero,
      List.append_assoc, List.take_left' hheader, leNumber_leBytes]
    exact Nat.mod_eq_of_lt hbody
  have hdrop : (kind :: leBytes 3 body.length ++ body ++ rest).drop 4 = body ++ rest := by
    rw [List.cons_append, List.cons_append, List.drop_succ_cons, List.append_assoc,
      List.drop_left' hheader]
  have hlength : (kind :: leBytes 3 body.length ++ body ++ rest).length =
      4 + body.length + rest.length := by
    rw [List.length_append, List.length_append, List.length_cons, hheader]
  rw [takeFrame, if_neg (by omega), hsize]
  change (match getType kind with | .error e => _ | .ok type => _) = _
  rw [hkind]
  dsimp only
  rw [if_neg (by omega), ← List.drop_drop, hdrop, List.take_left, List.drop_left]

/-- A part of a frame is no frame. -/
theorem takeFrame_part (hkind : getType kind = .ok type) (hbody : body.length < 2 ^ 24)
    (hparts : q ++ r = kind :: leBytes 3 body.length ++ body) (hr : r ≠ []) :
    takeFrame q = .ok none := by
  by_contra hne
  have hwhole := takeFrame_encoded hkind hbody []
  rw [List.append_nil, ← hparts, takeFrame_append r hne] at hwhole
  cases hframe : takeFrame q with
  | error e =>
    rw [hframe] at hwhole
    cases hwhole
  | ok frame =>
    rw [hframe] at hwhole
    cases frame with
    | none => cases hwhole
    | some frame =>
      have hrest := congrArg (fun frame => frame.2.2) (Option.some.inj (Except.ok.inj hwhole))
      exact hr (List.append_eq_nil_iff.mp hrest).2

/-- The frame of a block, whichever way it is stored. -/
theorem chunkFrame_eq (hcodec : Codec snappy uncompress)
    (hblock : block.length ≤ UNCOMPRESSED_CHUNK_SIZE) :
    ∃ kind type body, chunkFrame snappy block = kind :: leBytes 3 body.length ++ body ∧
      getType kind = .ok type ∧ body.length < 2 ^ 24 ∧
      ∀ (pushed rest : Bytes), readFrame uncompress ⟨true, rest, pushed⟩ type body =
        .ok ⟨true, rest, pushed ++ block⟩ := by
  have hsum := hcodec.checksum block
  have hdrop : ∀ content : Bytes, (snappy.checksum block ++ content).drop 4 = content :=
    fun content => List.drop_left' hsum
  have hframe : ∀ (kind : UInt8) (content : Bytes), frame snappy kind block content =
      kind :: leBytes 3 (snappy.checksum block ++ content).length ++
        (snappy.checksum block ++ content) := by
    intro kind content
    rw [frame, List.length_append, hsum, Nat.add_comm, List.cons_append, List.cons_append,
      List.cons_append, List.append_assoc]
  rw [UNCOMPRESSED_CHUNK_SIZE] at hblock
  rw [chunkFrame]
  split
  · next hshort =>
    refine ⟨0, .compressed, _, hframe 0 _, rfl, ?_, fun pushed rest => ?_⟩
    · rw [List.length_append, hsum]
      omega
    · have hraw : uncompress ((snappy.checksum block ++ snappy.compress block).drop 4) =
          some block := by
        rw [hdrop]
        exact hcodec.roundTrip block hblock
      unfold readFrame
      rw [if_neg (by simp)]
      dsimp only
      rw [hraw]
  · refine ⟨1, .uncompressed, _, hframe 1 _, rfl, ?_, fun pushed rest => ?_⟩
    · rw [List.length_append, hsum]
      omega
    · unfold readFrame
      rw [if_neg (by simp)]
      dsimp only
      rw [hdrop]

theorem parse_identifier (rest : Bytes) :
    parse uncompress ⟨false, IDENTIFIER_FRAME ++ rest, []⟩ =
      parse uncompress ⟨true, rest, []⟩ := by
  have hframe : takeFrame (IDENTIFIER_FRAME ++ rest) = .ok (some (.identifier, IDENTIFIER, rest)) :=
    takeFrame_encoded rfl (show IDENTIFIER.length < 2 ^ 24 by decide) rest
  exact parse_frame hframe rfl

theorem parse_blocks (hcodec : Codec snappy uncompress)
    (hblocks : ∀ block ∈ blocks, block.length ≤ UNCOMPRESSED_CHUNK_SIZE) (rest pushed : Bytes) :
    parse uncompress ⟨true, (blocks.map (chunkFrame snappy)).flatten ++ rest, pushed⟩ =
      parse uncompress ⟨true, rest, pushed ++ blocks.flatten⟩ := by
  induction blocks generalizing pushed with
  | nil =>
    rw [List.flatten_nil, List.append_nil]
    rfl
  | cons block blocks ih =>
    rw [List.forall_mem_cons] at hblocks
    obtain ⟨kind, type, body, hframe, hkind, hbody, hread⟩ := chunkFrame_eq hcodec hblocks.1
    have htake := takeFrame_encoded hkind hbody ((blocks.map (chunkFrame snappy)).flatten ++ rest)
    rw [← hframe, ← List.append_assoc, ← List.flatten_cons, ← List.map_cons] at htake
    rw [List.flatten_cons, ← List.append_assoc, ← ih hblocks.2]
    exact parse_frame htake (hread _ _)

/-- A prefix that does not end with a frame ends inside of one. -/
theorem prefix_cases {frames : List Bytes} (h : p <+: frames.flatten)
    (hinside : ∀ k, p ≠ (frames.take k).flatten) :
    ∃ k q r, frames[k]? = some (q ++ r) ∧ r ≠ [] ∧ p = (frames.take k).flatten ++ q := by
  induction frames generalizing p with
  | nil => exact absurd (List.prefix_nil.mp h) (hinside 0)
  | cons frame frames ih =>
    obtain ⟨tail, htail⟩ := h
    rw [List.flatten_cons] at htail
    obtain ⟨r, hframe, hrest⟩ | ⟨p', hp, hrest⟩ := List.append_eq_append_iff.mp htail
    · by_cases hr : r = []
      · refine absurd ?_ (hinside 1)
        rw [hframe, hr, List.append_nil]
        exact (List.append_nil p).symm
      · exact ⟨0, p, r, congrArg some hframe, hr, rfl⟩
    · subst hp
      obtain ⟨k, q, r, hget, hr, hp'⟩ := ih ⟨tail, hrest.symm⟩ fun k hk => hinside (k + 1) (by
        rw [List.take_succ_cons, List.flatten_cons, hk])
      refine ⟨k + 1, q, r, hget, hr, ?_⟩
      rw [List.take_succ_cons, List.flatten_cons, hp', List.append_assoc]

/-- The whole stream gives the data, however it is cut. -/
theorem output_compressData (hcodec : Codec snappy uncompress) {chunks : List Bytes}
    (hchunks : chunks.flatten = compressData snappy data) :
    output uncompress chunks = .ok data := by
  have hshort : ∀ block ∈ blocksOf data, block.length ≤ UNCOMPRESSED_CHUNK_SIZE :=
    fun block hblock => (mem_blocksOf hblock).1
  have hblocks := parse_blocks hcodec hshort [] []
  rw [List.append_nil, List.nil_append, flatten_blocksOf] at hblocks
  rw [output_eq, hchunks, ← flatten_framesOf, framesOf, List.flatten_cons, parse_identifier,
    hblocks, parse_stop (takeFrame_nil (show ([] : Bytes).length < 4 by decide))]
  rfl

/-- A stream that is cut inside of a frame ends without an error, with the blocks before it. -/
theorem output_prefix (hcodec : Codec snappy uncompress) {chunks : List Bytes}
    (hpart : chunks.flatten <+: compressData snappy data)
    (hinside : ∀ k, chunks.flatten ≠ ((framesOf snappy data).take k).flatten) :
    ∃ k, output uncompress chunks = .ok ((blocksOf data).take k).flatten ∧
      (data ≠ [] → ((blocksOf data).take k).flatten.length < data.length) := by
  rw [← flatten_framesOf] at hpart
  obtain ⟨k, q, r, hframe, hr, hchunks⟩ := prefix_cases hpart hinside
  rw [output_eq, hchunks]
  cases k with
  | zero =>
    have hparts : q ++ r = IDENTIFIER_FRAME := (Option.some.inj hframe).symm
    have hstop : takeFrame q = .ok none :=
      takeFrame_part rfl (show IDENTIFIER.length < 2 ^ 24 by decide) hparts hr
    refine ⟨0, ?_, fun hdata => List.length_pos_iff.mpr hdata⟩
    change (parse uncompress ⟨false, q, []⟩).map pushed = _
    rw [parse_stop hstop]
    rfl
  | succ k =>
    rw [framesOf, List.getElem?_cons_succ, List.getElem?_map] at hframe
    obtain ⟨block, hblock, hparts⟩ := Option.map_eq_some_iff.mp hframe
    have hmem := mem_blocksOf (List.mem_of_getElem? hblock)
    obtain ⟨kind, type, body, heq, hkind, hbody, -⟩ := chunkFrame_eq hcodec hmem.1
    have hstop := takeFrame_part hkind hbody (hparts.symm.trans heq) hr
    have hshort : ∀ block ∈ (blocksOf data).take k, block.length ≤ UNCOMPRESSED_CHUNK_SIZE :=
      fun block hblock => (mem_blocksOf (List.mem_of_mem_take hblock)).1
    have hblocks := parse_blocks hcodec hshort q []
    refine ⟨k, ?_, fun _ => ?_⟩
    · rw [framesOf, List.take_succ_cons, List.flatten_cons, List.append_assoc, parse_identifier,
        ← List.map_take, hblocks, parse_stop hstop]
      rfl
    · have hsplit : data = ((blocksOf data).take k).flatten ++ (block ++
          ((blocksOf data).drop (k + 1)).flatten) := by
        obtain ⟨hk, hget⟩ := List.getElem?_eq_some_iff.mp hblock
        rw [← List.flatten_cons, ← hget, ← List.drop_eq_getElem_cons hk, ← List.flatten_append,
          List.take_append_drop, flatten_blocksOf]
      have hpos := List.length_pos_iff.mpr hmem.2
      have hlength := congrArg List.length hsplit
      rw [List.length_append, List.length_append] at hlength
      omega

end Frames

section Entries

/-- The length in the header of an entry. -/
def declaredLength (bytes : Bytes) : Nat := leNumber ((bytes.drop 2).take 6)

theorem readEntry_error_iff {bytes : Bytes} (h : 8 ≤ bytes.length) :
    (∃ e, readEntry bytes = .error e) ↔ declaredLength bytes > bytes.length := by
  rw [readEntry, if_neg (by omega), declaredLength]
  dsimp only
  split
  · next hlong => exact iff_of_true ⟨_, rfl⟩ hlong
  · next hshort => exact iff_of_false (by rintro ⟨e, ⟨⟩⟩) hshort

end Entries

section Closed

variable {snappy : Snappy}

/-- The stream loses nothing, it never fails on a frame that is cut, and `readEntry` fails where
the length is greater than that of the whole input. -/
theorem failsClosed_iff (hcodec : Codec snappy uncompress) :
    (∀ (data : Bytes) (chunks : List Bytes), chunks.flatten = compressData snappy data →
      output uncompress chunks = .ok data) ∧
    (∀ (data : Bytes) (chunks : List Bytes), chunks.flatten <+: compressData snappy data →
      (∀ k, chunks.flatten ≠ ((framesOf snappy data).take k).flatten) →
        (¬ ∃ e, output uncompress chunks = .error e) ∧
          ∃ shortened, output uncompress chunks = .ok shortened ∧
            (data ≠ [] → shortened.length < data.length)) ∧
    ∀ bytes : Bytes, 8 ≤ bytes.length → declaredLength bytes > bytes.length - 8 →
      ((∃ e, readEntry bytes = .error e) ↔ declaredLength bytes > bytes.length) := by
  refine ⟨fun data chunks hchunks => output_compressData hcodec hchunks,
    fun data chunks hpart hinside => ?_, fun bytes h _ => readEntry_error_iff h⟩
  obtain ⟨k, hok, hshort⟩ := output_prefix hcodec hpart hinside
  refine ⟨?_, _, hok, hshort⟩
  rintro ⟨e, herror⟩
  rw [hok] at herror
  cases herror

/-- Blocks of up to 60 bytes as one literal, and the checksum of `[7]`. -/
def literals : Snappy where
  compress block := UInt8.ofNat block.length :: UInt8.ofNat (4 * (block.length - 1)) :: block
  checksum _ := [0x46, 0xf8, 0xf7, 0x11]
  decompressData _ := none

def literal (bytes : Bytes) : Option Bytes := some (bytes.drop 2)

theorem failsClosed_iff_sample :
    Codec literals literal ∧
    (∀ chunks : List Bytes, chunks.flatten = compressData literals [7] →
      output literal chunks = .ok [7]) ∧
    ((compressData literals [7]).take 18 ≠ ((framesOf literals [7]).take 1).flatten ∧
      ¬ ∃ e, output literal [(compressData literals [7]).take 18] = .error e) := by
  have hcodec : Codec literals literal := ⟨fun _ _ => rfl, fun _ => rfl⟩
  obtain ⟨hlossless, hcut, -⟩ := failsClosed_iff hcodec
  refine ⟨hcodec, hlossless [7], by decide, ?_⟩
  refine (hcut [7] [(compressData literals [7]).take 18] ?_ ?_).1
  · rw [List.flatten_singleton]
    exact List.take_prefix _ _
  · intro k
    match k with
    | 0 => decide
    | 1 => decide
    | k + 2 =>
      rw [List.take_of_length_le (show (framesOf literals [7]).length ≤ k + 2 by
        have : (framesOf literals [7]).length = 2 := by decide
        omega)]
      decide

/-- The frame of the only block is cut by its last byte, and the entry has one byte of data in its
header and none behind it. -/
theorem not_failsClosed :
    (output literal [(compressData literals [7]).dropLast] = .ok [] ∧
      (compressData literals [7]).dropLast ≠ IDENTIFIER_FRAME ∧
      output literal [compressData literals [7]] = .ok [7]) ∧
    readEntry [0x65, 0x32, 1, 0, 0, 0, 0, 0] = .ok { type := [0x65, 0x32], data := [] } ∧
      declaredLength [0x65, 0x32, 1, 0, 0, 0, 0, 0] = 1 := by
  decide

end Closed

end UncompressStream

end EthereumJS.E2store
