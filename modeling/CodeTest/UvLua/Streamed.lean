import CodeTest.UvLua.StreamDecoder
import CodeTest.UvLua.Unpacked

/-!
# What the decoder of a stream delivers

Pieces of whole messages are delivered once and in order. When a piece ends inside the size of a
message, what is kept of it is never given up, and every later piece delivers again all messages
from this one on, as long as the integers and the stack hold what is kept. When a piece ends with
the size of a message, the messages before it are lost. When a piece ends after that, and the
payload of the message is longer than the piece, the decoder waits for ever.
-/

namespace CodeTest.UvLua

open Decoder

namespace StreamDecoder

/-- Values that can be sent as one message. -/
def Message (vs : List LuaData) : Prop :=
  (∀ v ∈ vs, Sendable v) ∧ (payload vs).length < 2 ^ 32

/-- The messages as they are sent. -/
def stream (ms : List (List LuaData)) : List UInt8 := ms.flatMap serial

/-- The values of the messages as they come back. -/
def values (ms : List (List LuaData)) : List LuaData := ms.flatten.map received

/-- Messages that the decoder can have in its memory and on the stack of Lua at once, where `inUse`
slots of the stack are in use when it is called. -/
structure Holdable (inUse : ℕ) (ms : List (List LuaData)) : Prop where
  values : ∀ vs ∈ ms, ∀ v ∈ vs, Sendable v
  bytes : (stream ms).length < 2 ^ 31
  stack : inUse + slots ms.flatten ≤ luaiMaxstack

/-! ## One message -/

theorem swapU32_swapU32 (x : UInt32) : swapU32 (swapU32 x) = x := by
  apply UInt32.toNat_inj.mp
  obtain ⟨b₀, b₁, b₂, b₃, h₀, h₁, h₂, h₃, hx, hswap⟩ := exists_bytes x
  obtain ⟨c₀, c₁, c₂, c₃, k₀, k₁, k₂, k₃, hy, hback⟩ := exists_bytes (swapU32 x)
  have hc₀ : c₀ = b₃ := by omega
  have hc₁ : c₁ = b₂ := by omega
  have hc₂ : c₂ = b₁ := by omega
  rw [hback, hx]
  omega

theorem length_payload_pos (vs : List LuaData) : 0 < (payload vs).length := by
  rw [payload, List.length_append]
  exact Nat.succ_pos _

theorem length_serial (vs : List LuaData) : (serial vs).length = 4 + (payload vs).length := by
  rw [serial, List.length_append, length_littleEndian]

/-- The size that `lua_defparser_push` reads is the one that was meant. -/
theorem size_eq (vs : List LuaData) (rest : List UInt8) :
    swapU32 (UInt32.ofNat (ofLittleEndian ((serial vs ++ rest).take 4))) =
      UInt32.ofNat (payload vs).length := by
  have htake : (serial vs ++ rest).take 4 = (serial vs).take 4 := by
    rw [List.take_append_of_le_length (by rw [length_serial]; exact Nat.le_add_right 4 _)]
  rw [htake, size_serial, UInt32.ofNat_toNat, swapU32_swapU32]

/-- The same, when the message is cut. -/
theorem size_take (vs : List LuaData) {k : ℕ} (hk : 4 ≤ k) :
    swapU32 (UInt32.ofNat (ofLittleEndian (((serial vs).take k).take 4))) =
      UInt32.ofNat (payload vs).length := by
  have hsize := size_eq vs []
  rw [List.append_nil] at hsize
  rw [List.take_take, min_eq_left hk, hsize]

theorem toNat_size {vs : List LuaData} (h : Message vs) :
    (UInt32.ofNat (payload vs).length).toNat = (payload vs).length := by
  rw [UInt32.toNat_ofNat']
  exact Nat.mod_eq_of_lt h.2

/-- The values of a message are read to its end. -/
theorem pushValues_payload {vs : List LuaData} (h : ∀ v ∈ vs, Sendable v) {fuel : ℕ}
    (hfuel : (payload vs).length ≤ fuel) (L : List LuaData) (rest : List UInt8) :
    pushValues fuel L (payload vs ++ rest) =
      some (some ((payload vs).length - 1), (vs.map received).reverse ++ L) := by
  induction vs generalizing fuel L with
  | nil =>
    obtain ⟨fuel, rfl⟩ : ∃ m, fuel = m + 1 := ⟨fuel - 1, (Nat.sub_add_cancel hfuel).symm⟩
    rfl
  | cons v vs ih =>
    rw [payload_cons, List.length_append] at hfuel
    have hvpos := length_serialone_pos v
    have hend := length_payload_pos vs
    obtain ⟨fuel, rfl⟩ : ∃ m, fuel = m + 1 := ⟨fuel - 1, by omega⟩
    obtain ⟨c, tail, hc, hne⟩ := exists_serialone_eq v
    have hbuf : payload (v :: vs) ++ rest = c :: (tail ++ (payload vs ++ rest)) := by
      rw [payload_cons, hc, List.append_assoc, List.cons_append]
    have hback : c :: (tail ++ (payload vs ++ rest)) = serialone v ++ (payload vs ++ rest) := by
      rw [hc, List.cons_append]
    have hnonneg : ¬ ((serialone v).length : ℤ) < 0 := by omega
    rw [hbuf, pushValues, if_neg hne, hback]
    simp only [Option.bind_eq_bind,
      pushdata_serialone v (h v List.mem_cons_self) (show _ ≤ fuel by omega), Option.bind_some,
      if_neg hnonneg, Int.toNat_natCast, List.drop_left]
    rw [ih (fun x hx => h x (List.mem_cons_of_mem v hx)) (by omega), Option.bind_some,
      Option.map_some, List.map_cons, List.reverse_cons, List.append_assoc, payload_cons,
      List.length_append]
    refine congrArg (fun n => some (some n, _)) ?_
    omega

variable {d : StreamDecoder} {L : List LuaData} {buf done rest : List UInt8} {fuel : ℕ}

/-- Two turns of the loop of `lua_defparser_push`. -/
theorem pushLoop_serial {vs : List LuaData} (h : Message vs) (hst : d.st = .start)
    (hbuf : buf = done ++ (serial vs ++ rest)) :
    pushLoop buf (fuel + 2) done.length d L =
      pushLoop buf fuel (done.length + (serial vs).length)
        { d with size := UInt32.ofNat (payload vs).length } ((vs.map received).reverse ++ L) := by
  have hlen : buf.length = done.length + ((serial vs).length + rest.length) := by
    rw [hbuf, List.length_append, List.length_append]
  have hserial := length_serial vs
  have hpos := length_payload_pos vs
  have hdrop : buf.drop done.length = serial vs ++ rest := by rw [hbuf, List.drop_left]
  have hdrop₄ : buf.drop (done.length + 4) = payload vs ++ rest := by
    rw [← List.drop_drop, hdrop, serial, List.append_assoc]
    exact List.drop_left' (length_littleEndian 4 _)
  rw [pushLoop, if_pos (by omega), hst]
  simp only [if_pos (show done.length + 4 ≤ buf.length by omega), hdrop, size_eq]
  rw [pushLoop, if_pos (by omega)]
  simp only [toNat_size h, if_pos (show (payload vs).length ≤ buf.length by omega), hdrop₄,
    pushValues_payload h.1 (show _ ≤ buf.length + 1 by omega), Option.bind_eq_bind,
    Option.bind_some]
  have hp : done.length + 4 + ((payload vs).length - 1) + 1 =
      done.length + (serial vs).length := by omega
  rw [hp, ← hst]

/-! ## A piece of the stream -/

theorem stream_cons (vs : List LuaData) (ms : List (List LuaData)) :
    stream (vs :: ms) = serial vs ++ stream ms := List.flatMap_cons

theorem stream_append (ms ms' : List (List LuaData)) :
    stream (ms ++ ms') = stream ms ++ stream ms' := List.flatMap_append

theorem length_payload_le {vs : List LuaData} {ms : List (List LuaData)} (hvs : vs ∈ ms) :
    (payload vs).length ≤ (stream ms).length := by
  obtain ⟨front, back, rfl⟩ := List.append_of_mem hvs
  rw [stream_append, stream_cons, List.length_append, List.length_append, length_serial]
  omega

/-- Messages that can be held together can be sent one by one. -/
theorem Holdable.message {inUse : ℕ} {ms : List (List LuaData)} (h : Holdable inUse ms)
    {vs : List LuaData} (hvs : vs ∈ ms) : Message vs :=
  ⟨h.values vs hvs, ((length_payload_le hvs).trans_lt h.bytes).trans (by decide)⟩

theorem length_le_length_stream (ms : List (List LuaData)) :
    4 * ms.length ≤ (stream ms).length := by
  induction ms with
  | nil => exact Nat.le_refl 0
  | cons vs ms ih =>
    rw [stream_cons, List.length_append, length_serial, List.length_cons]
    omega

/-- The loop of `lua_defparser_push` goes on to the end of the last message. -/
theorem pushLoop_stream {ms : List (List LuaData)} (h : ∀ vs ∈ ms, Message vs)
    (hst : d.st = .start) (hbuf : buf = done ++ (stream ms ++ rest)) :
    ∃ size, pushLoop buf (fuel + 2 * ms.length) done.length d L =
      pushLoop buf fuel (done.length + (stream ms).length) { d with size }
        ((values ms).reverse ++ L) := by
  induction ms generalizing done d L with
  | nil => exact ⟨d.size, rfl⟩
  | cons vs ms ih =>
    rw [stream_cons, List.append_assoc] at hbuf
    have hbuf' : buf = (done ++ serial vs) ++ (stream ms ++ rest) := by
      rw [hbuf, List.append_assoc]
    obtain ⟨size, hloop⟩ := @ih { d with size := UInt32.ofNat (payload vs).length }
      ((vs.map received).reverse ++ L) (done ++ serial vs)
      (fun x hx => h x (List.mem_cons_of_mem vs hx)) hst hbuf'
    refine ⟨size, ?_⟩
    rw [List.length_cons, Nat.mul_succ, ← Nat.add_assoc,
      pushLoop_serial (h vs List.mem_cons_self) hst hbuf, ← List.length_append, hloop,
      List.length_append, stream_cons, List.length_append, ← Nat.add_assoc, values, values,
      List.flatten_cons, List.map_append, List.reverse_append, List.append_assoc]

/-- `lua_defparser_push` takes the whole messages, and leaves a size that is cut. -/
theorem push_stream {ms : List (List LuaData)} (h : ∀ vs ∈ ms, Message vs) (hst : d.st = .start)
    (hrest : rest.length < 4) :
    ∃ size, push d L (stream ms ++ rest) =
      some (((stream ms).length : ℤ), { d with size }, (values ms).reverse ++ L) := by
  have hlen : (stream ms ++ rest).length = (stream ms).length + rest.length :=
    List.length_append
  have hturns := length_le_length_stream ms
  obtain ⟨fuel, hfuel⟩ : ∃ fuel, (stream ms ++ rest).length + 1 = fuel + 1 + 2 * ms.length :=
    ⟨(stream ms ++ rest).length - 2 * ms.length, by omega⟩
  obtain ⟨size, hloop⟩ := @pushLoop_stream d L (stream ms ++ rest) [] rest (fuel + 1) ms h hst rfl
  refine ⟨size, ?_⟩
  rw [push, hfuel]
  refine hloop.trans ?_
  rw [List.length_nil, Nat.zero_add, pushLoop]
  by_cases hmore : (stream ms).length < (stream ms ++ rest).length
  · rw [if_pos hmore]
    simp only [hst, if_neg (show ¬ (stream ms).length + 4 ≤ (stream ms ++ rest).length by omega)]
  · rw [if_neg hmore]

theorem length_stream_pos {ms : List (List LuaData)} (hne : ms ≠ []) : 0 < (stream ms).length := by
  have hturns := length_le_length_stream ms
  have hpos : 0 < ms.length := List.length_pos_iff.mpr hne
  omega

variable {ms : List (List LuaData)} {kept called : Bool} {front data : List UInt8}

/-- The loop of `lua_default_decoder` ends with the data. -/
theorem decoderLoop_end (hfuel : 0 < fuel) :
    decoderLoop kept data fuel data.length called d L = some ([], d) := by
  cases fuel with
  | zero => exact absurd hfuel (Nat.lt_irrefl 0)
  | succ fuel => exact if_neg (Nat.lt_irrefl _)

/-- What is left of a size is stored. -/
theorem decoderLoop_rest (hst : d.st = .start) (hpos : 0 < rest.length) (hrest : rest.length < 4) :
    ∃ size, decoderLoop false (front ++ rest) (fuel + 1) front.length called d [] =
      some ([], { d with mem := d.mem ++ rest, offset := 0, size }) := by
  obtain ⟨size, hpush⟩ :=
    @push_stream d [] rest [] (fun _ hx => absurd hx List.not_mem_nil) hst hrest
  have hlt : front.length < (front ++ rest).length := by
    rw [List.length_append]
    omega
  have hdrop : (front ++ rest).drop front.length = rest := List.drop_left
  have hpush' : push d [] rest = some (0, { d with size }, []) := hpush
  refine ⟨size, ?_⟩
  rw [decoderLoop, if_pos hlt, hdrop, hpush']
  simp only [Option.bind_eq_bind, Option.bind_some, lt_irrefl, if_false, if_pos hlt,
    Bool.false_eq_true]
  rfl

/-- The first turn of the loop of `lua_default_decoder` calls the script back. -/
theorem decoderLoop_stream (h : ∀ vs ∈ ms, Message vs) (hne : ms ≠ []) (hst : d.st = .start)
    (hrest : rest.length < 4) :
    ∃ size, decoderLoop kept (stream ms ++ rest) (fuel + 1) 0 false d [] =
      (decoderLoop kept (stream ms ++ rest) fuel (stream ms).length true { d with size } []).map
        fun out => (values ms :: out.1, out.2) := by
  obtain ⟨size, hpush⟩ := @push_stream d [] rest ms h hst hrest
  have hpos := length_stream_pos hne
  have hlt : 0 < (stream ms ++ rest).length := by
    rw [List.length_append]
    omega
  have hused : (0 : ℤ) < (stream ms).length := by exact_mod_cast hpos
  refine ⟨size, ?_⟩
  rw [decoderLoop, if_pos hlt, List.drop_zero, hpush]
  simp only [Option.bind_eq_bind, Option.bind_some, if_pos hused, hst, if_true,
    Bool.false_eq_true, if_false, Nat.zero_add, Int.toNat_natCast, List.append_nil,
    List.reverse_reverse]
  rw [Option.map_eq_bind]
  rfl

theorem decoderLoop_whole (h : ∀ vs ∈ ms, Message vs) (hne : ms ≠ []) (hst : d.st = .start) :
    ∃ size, decoderLoop kept (stream ms) (fuel + 2) 0 false d [] =
      some ([values ms], { d with size }) := by
  obtain ⟨size, hloop⟩ := @decoderLoop_stream d [] (fuel + 1) ms kept h hne hst (by decide)
  rw [List.append_nil] at hloop
  refine ⟨size, hloop.trans ?_⟩
  rw [decoderLoop_end (Nat.succ_pos fuel)]
  rfl

/-! ## Runs -/

theorem decode_of_empty (hmem : d.mem = []) (data : List UInt8) :
    decode d data = decoderLoop false data (data.length + 1) 0 false d [] := by
  refine if_neg ?_
  rw [hmem]
  exact Nat.not_lt_zero _

/-- A piece of whole messages, when nothing is kept. -/
theorem decode_whole (h : ∀ vs ∈ ms, Message vs) (hne : ms ≠ []) (hst : d.st = .start)
    (hmem : d.mem = []) :
    ∃ size, decode d (stream ms) = some ([values ms], { d with size }) := by
  have hlen : (stream ms).length + 1 = (stream ms).length - 1 + 2 := by
    have := length_stream_pos hne
    omega
  rw [decode_of_empty hmem, hlen]
  exact decoderLoop_whole h hne hst

/-- The end of whole messages, of which the start is kept. It is kept on. -/
theorem decode_kept (h : ∀ vs ∈ ms, Message vs) (hne : ms ≠ []) (hst : d.st = .start)
    (hmem : d.mem ≠ []) (hoffset : d.offset = 0) (hdata : d.mem ++ data = stream ms) :
    ∃ size, decode d data = some ([values ms], { d with mem := stream ms, size }) := by
  have hlen : (stream ms).length + 1 = (stream ms).length - 1 + 2 := by
    have := length_stream_pos hne
    omega
  have hkept : d.offset < d.mem.length := by
    rw [hoffset]
    exact List.length_pos_iff.mpr hmem
  rw [decode, if_pos hkept, hdata, hoffset]
  simp only [hlen]
  obtain ⟨size, hloop⟩ :=
    @decoderLoop_whole { d with mem := stream ms } ((stream ms).length - 1) ms true h hne hst
  exact ⟨size, hoffset ▸ hloop⟩

/-- Whole messages and the start of a size, when nothing is kept. -/
theorem decode_cut (h : ∀ vs ∈ ms, Message vs) (hst : d.st = .start) (hmem : d.mem = [])
    (hpos : 0 < rest.length) (hrest : rest.length < 4) :
    ∃ size, decode d (stream ms ++ rest) =
      some (if ms = [] then [] else [values ms], { d with mem := rest, offset := 0, size }) := by
  rw [decode_of_empty hmem]
  by_cases hne : ms = []
  · subst hne
    obtain ⟨size, hloop⟩ := @decoderLoop_rest d rest rest.length false [] hst hpos hrest
    rw [hmem, List.nil_append] at hloop
    exact ⟨size, hloop⟩
  · have hlen : (stream ms ++ rest).length + 1 = (stream ms ++ rest).length - 1 + 1 + 1 := by
      rw [List.length_append]
      omega
    obtain ⟨size, hloop⟩ :=
      @decoderLoop_stream d rest ((stream ms ++ rest).length - 1 + 1) ms false h hne hst hrest
    obtain ⟨size', hrest'⟩ := @decoderLoop_rest { d with size } rest
      ((stream ms ++ rest).length - 1) true (stream ms) hst hpos hrest
    refine ⟨size', ?_⟩
    rw [hlen, hloop, hrest', if_neg hne, hmem]
    rfl

/-- Pieces of whole messages, when nothing is kept. -/
theorem decodeAll_whole {pieces : List (List (List LuaData))}
    (h : ∀ ms ∈ pieces, ms ≠ [] ∧ ∀ vs ∈ ms, Message vs) (hst : d.st = .start)
    (hmem : d.mem = []) :
    ∃ d', decodeAll d (pieces.map stream) = some (pieces.map values, d') := by
  induction pieces generalizing d with
  | nil => exact ⟨d, rfl⟩
  | cons ms pieces ih =>
    obtain ⟨hne, hms⟩ := h ms List.mem_cons_self
    obtain ⟨size, hdecode⟩ := decode_whole hms hne hst hmem
    obtain ⟨d', hall⟩ := @ih { d with size } (fun x hx => h x (List.mem_cons_of_mem ms hx)) hst hmem
    refine ⟨d', ?_⟩
    rw [List.map_cons, decodeAll, hdecode]
    simp only [Option.bind_eq_bind, Option.bind_some, hall]
    rfl

/-- Pieces of whole messages, when messages are kept: these are delivered again with every piece. -/
theorem decodeAll_kept {pieces : List (List (List LuaData))}
    (h : ∀ ms ∈ pieces, ∀ vs ∈ ms, Message vs) (hold : ∀ vs ∈ ms, Message vs) (hne : ms ≠ [])
    (hst : d.st = .start) (hmem : d.mem = stream ms) (hoffset : d.offset = 0) :
    ∃ d', decodeAll d (pieces.map stream) =
      some (pieces.inits.tail.map fun pre => values (ms ++ pre.flatten), d') := by
  induction pieces generalizing d ms with
  | nil => exact ⟨d, rfl⟩
  | cons piece pieces ih =>
    have hpiece := h piece List.mem_cons_self
    have hall : ∀ vs ∈ ms ++ piece, Message vs := fun vs hvs =>
      (List.mem_append.mp hvs).elim (hold vs) (hpiece vs)
    have hne' : ms ++ piece ≠ [] := List.append_ne_nil_of_left_ne_nil hne piece
    have hmem' : d.mem ≠ [] := by
      rw [hmem]
      exact List.length_pos_iff.mp (length_stream_pos hne)
    obtain ⟨size, hdecode⟩ := decode_kept hall hne' hst hmem' hoffset
      (show d.mem ++ stream piece = _ by rw [hmem, stream_append])
    obtain ⟨d', hrun⟩ := @ih { d with mem := stream (ms ++ piece), size } (ms ++ piece)
      (fun x hx => h x (List.mem_cons_of_mem piece hx)) hall hne' hst rfl hoffset
    refine ⟨d', ?_⟩
    rw [List.map_cons, decodeAll, hdecode]
    have hinits : (piece :: pieces).inits.tail = pieces.inits.map (piece :: ·) := by
      rw [List.inits_cons]
      rfl
    have hempty : pieces.inits = [] :: pieces.inits.tail := by cases pieces <;> rfl
    rw [hinits, hempty, List.map_cons, List.map_cons, List.map_map, Option.bind_eq_bind,
      Option.bind_some]
    simp only [hrun, Option.bind_some]
    have hfirst : [piece].flatten = piece := List.flatten_singleton
    have hlater : (fun pre : List (List (List LuaData)) => values (ms ++ pre.flatten)) ∘
        (piece :: ·) = fun pre => values (ms ++ piece ++ pre.flatten) := by
      funext pre
      rw [Function.comp_apply, List.flatten_cons, List.append_assoc]
    rw [hfirst, hlater]
    rfl

/-- **Whole messages are delivered.** Whatever messages come in whatever pieces, if no message is
cut, the script is called back once for each piece, with the values of its messages in order. -/
theorem delivers (pieces : List (List (List LuaData)))
    (h : ∀ ms ∈ pieces, ms ≠ [] ∧ ∀ vs ∈ ms, Message vs) :
    (decodeAll create (pieces.map stream)).map Prod.fst = some (pieces.map values) := by
  obtain ⟨d', hrun⟩ := decodeAll_whole h (show create.st = .start from rfl) rfl
  rw [hrun]
  rfl

theorem message_two : Message [.nil, .string [1, 2]] := by
  refine ⟨fun v hv => ?_, by decide⟩
  rcases List.mem_cons.mp hv with rfl | hv
  · trivial
  · rw [List.mem_singleton.mp hv]
    exact show 2 < 2 ^ 28 by decide

/-- Two messages in one piece, and one in another. -/
theorem delivers_three :
    (decodeAll create ([[[.nil, .string [1, 2]], []], [[.nil, .string [1, 2]]]].map stream)).map
      Prod.fst = some ([[[.nil, .string [1, 2]], []], [[.nil, .string [1, 2]]]].map values) := by
  refine delivers _ fun ms hms => ?_
  rcases List.mem_cons.mp hms with rfl | hms
  · refine ⟨List.cons_ne_nil _ _, fun vs hvs => ?_⟩
    rcases List.mem_cons.mp hvs with rfl | hvs
    · exact message_two
    · rw [List.mem_singleton.mp hvs]
      exact ⟨fun v hv => absurd hv List.not_mem_nil, by decide⟩
  · rw [List.mem_singleton.mp hms]
    refine ⟨List.cons_ne_nil _ _, fun vs hvs => ?_⟩
    rw [List.mem_singleton.mp hvs]
    exact message_two

/-- The loop of `lua_defparser_push` comes to the size of the message that is cut. -/
theorem pushLoop_size {vs : List LuaData} {k n : ℕ} (h : ∀ m ∈ ms, Message m) (hk : 4 ≤ k)
    (hst : d.st = .start) :
    pushLoop (stream ms ++ (serial vs).take k) (n + 1 + 2 * ms.length) 0 d L =
      pushLoop (stream ms ++ (serial vs).take k) n ((stream ms).length + 4)
        { d with st := .dataStart, size := UInt32.ofNat (payload vs).length }
        ((values ms).reverse ++ L) := by
  have hlen : (stream ms).length + 4 ≤ (stream ms ++ (serial vs).take k).length := by
    rw [List.length_append, List.length_take, length_serial]
    omega
  have hdrop : (stream ms ++ (serial vs).take k).drop (stream ms).length = (serial vs).take k :=
    List.drop_left
  obtain ⟨size, hloop⟩ := @pushLoop_stream d L (stream ms ++ (serial vs).take k) []
    ((serial vs).take k) (n + 1) ms h hst rfl
  refine hloop.trans ?_
  rw [List.length_nil, Nat.zero_add, pushLoop, if_pos (by omega)]
  simp only [hst, if_pos hlen, hdrop, size_take vs hk]

/-- The loop of `lua_defparser_push` waits for a message that is longer than the piece: it comes to
a state that its turns leave as it is, and is never left. -/
theorem stalls {vs : List LuaData} {k : ℕ} (h : ∀ m ∈ ms, Message m) (hvs : Message vs) (hk : 4 < k)
    (hst : d.st = .start) (hcut : (stream ms ++ (serial vs).take k).length < (payload vs).length) :
    ∃ d', (∀ n, pushLoop (stream ms ++ (serial vs).take k) (n + 1 + 2 * ms.length) 0 d L =
        pushLoop (stream ms ++ (serial vs).take k) n ((stream ms).length + 4) d'
          ((values ms).reverse ++ L)) ∧
      (∀ n, pushLoop (stream ms ++ (serial vs).take k) (n + 1) ((stream ms).length + 4) d'
          ((values ms).reverse ++ L) =
        pushLoop (stream ms ++ (serial vs).take k) n ((stream ms).length + 4) d'
          ((values ms).reverse ++ L)) ∧
      push d L (stream ms ++ (serial vs).take k) = none := by
  have hlen : (stream ms ++ (serial vs).take k).length =
      (stream ms).length + min k (serial vs).length := by
    rw [List.length_append, List.length_take]
  have hserial := length_serial vs
  have hpos := length_payload_pos vs
  have hreach : ∀ n, pushLoop (stream ms ++ (serial vs).take k) (n + 1 + 2 * ms.length) 0 d L = _ :=
    fun n => pushLoop_size h hk.le hst
  set buf := stream ms ++ (serial vs).take k
  set d' : StreamDecoder := { d with st := .dataStart, size := UInt32.ofNat (payload vs).length }
  have hturn : ∀ n, pushLoop buf (n + 1) ((stream ms).length + 4) d' ((values ms).reverse ++ L) =
      pushLoop buf n ((stream ms).length + 4) d' ((values ms).reverse ++ L) := by
    intro n
    rw [pushLoop, if_pos (by omega)]
    exact if_neg (by rw [toNat_size hvs]; omega)
  have hnever : ∀ n, pushLoop buf n ((stream ms).length + 4) d' ((values ms).reverse ++ L) =
      none := by
    intro n
    induction n with
    | zero => rfl
    | succ n ih => rw [hturn, ih]
  have hturns := length_le_length_stream ms
  obtain ⟨n, hn⟩ : ∃ n, buf.length + 1 = n + 1 + 2 * ms.length :=
    ⟨buf.length - 2 * ms.length, by omega⟩
  exact ⟨d', hreach, hturn, by rw [push, hn, hreach, hnever]⟩

/-- A piece ends after the first byte of a message. -/
theorem stalls_five :
    ∃ d', (∀ n, pushLoop (stream [] ++ (serial [.string [1, 2, 3, 4, 5]]).take 5)
          (n + 1 + 2 * 0) 0 create [] =
        pushLoop (stream [] ++ (serial [.string [1, 2, 3, 4, 5]]).take 5) n (0 + 4) d'
          ((values []).reverse ++ [])) ∧
      (∀ n, pushLoop (stream [] ++ (serial [.string [1, 2, 3, 4, 5]]).take 5) (n + 1) (0 + 4) d'
          ((values []).reverse ++ []) =
        pushLoop (stream [] ++ (serial [.string [1, 2, 3, 4, 5]]).take 5) n (0 + 4) d'
          ((values []).reverse ++ [])) ∧
      push create [] (stream [] ++ (serial [.string [1, 2, 3, 4, 5]]).take 5) = none := by
  refine @stalls create [] [] [.string [1, 2, 3, 4, 5]] 5 (fun m hm => absurd hm List.not_mem_nil)
    ⟨fun v hv => ?_, by decide⟩ (by decide) rfl (by decide)
  rw [List.mem_singleton.mp hv]
  exact show 5 < 2 ^ 28 by decide

/-! ## A message that is cut at the end of its size -/

/-- The size of a message is read, and what is on the stack is not handed over. -/
theorem decode_size {vs : List LuaData} (h : ∀ m ∈ ms, Message m) (hst : d.st = .start)
    (hmem : d.mem = []) :
    decode d (stream ms ++ (serial vs).take 4) =
      some ([], { d with st := .dataStart, size := UInt32.ofNat (payload vs).length }) := by
  have hlen₄ : ((serial vs).take 4).length = 4 := by
    rw [List.length_take, length_serial]
    exact min_eq_left (Nat.le_add_right 4 _)
  have hlen : (stream ms ++ (serial vs).take 4).length = (stream ms).length + 4 := by
    rw [List.length_append, hlen₄]
  have hturns := length_le_length_stream ms
  obtain ⟨n, hn⟩ : ∃ n, (stream ms ++ (serial vs).take 4).length + 1 = n + 1 + 1 + 2 * ms.length :=
    ⟨(stream ms ++ (serial vs).take 4).length - 1 - 2 * ms.length, by omega⟩
  have hpush : push d [] (stream ms ++ (serial vs).take 4) =
      some (((stream ms ++ (serial vs).take 4).length : ℤ),
        { d with st := .dataStart, size := UInt32.ofNat (payload vs).length },
        (values ms).reverse ++ []) := by
    rw [push, hn, pushLoop_size h (Nat.le_refl 4) hst, pushLoop, if_neg (by omega), hlen]
  set buf := stream ms ++ (serial vs).take 4
  have hused : (0 : ℤ) < (buf.length : ℤ) := by omega
  have hdata : Pst.dataStart ≠ Pst.start := by decide
  rw [decode_of_empty hmem, decoderLoop, if_pos (by omega), List.drop_zero, hpush]
  simp only [Option.bind_eq_bind, Option.bind_some, if_pos hused, if_neg hdata, Nat.zero_add,
    Int.toNat_natCast]
  exact decoderLoop_end (by omega)

/-- The message whose size is known comes with the next piece. -/
theorem decode_sized {vs : List LuaData} (hvs : Message vs) (h : ∀ m ∈ ms, Message m)
    (hst : d.st = .dataStart) (hsize : d.size = UInt32.ofNat (payload vs).length)
    (hmem : d.mem = []) :
    ∃ size, decode d (payload vs ++ stream ms) =
      some ([values (vs :: ms)], { d with st := .start, size }) := by
  have hlen : (payload vs ++ stream ms).length = (payload vs).length + (stream ms).length :=
    List.length_append
  have hpos := length_payload_pos vs
  have hturns := length_le_length_stream ms
  set buf := payload vs ++ stream ms with hbuf
  obtain ⟨n, hn⟩ : ∃ n, buf.length + 1 = n + 1 + 2 * ms.length + 1 :=
    ⟨buf.length - 1 - 2 * ms.length, by omega⟩
  obtain ⟨size, hloop⟩ := @pushLoop_stream { d with st := .start } ((vs.map received).reverse ++ [])
    buf (payload vs) [] (n + 1) ms h rfl (by rw [List.append_nil])
  have hfits : d.size.toNat ≤ buf.length := by
    rw [hsize, toNat_size hvs]
    omega
  have hvalues : pushValues (buf.length + 1) [] buf =
      some (some ((payload vs).length - 1), (vs.map received).reverse ++ []) :=
    pushValues_payload hvs.1 (show _ ≤ buf.length + 1 by omega) [] (stream ms)
  have hpush : push d [] buf = some ((buf.length : ℤ), { d with st := .start, size },
      (values (vs :: ms)).reverse) := by
    rw [push, hn, pushLoop, if_pos (by omega), hst]
    simp only [if_pos hfits, List.drop_zero, hvalues, Option.bind_eq_bind, Option.bind_some]
    rw [show 0 + ((payload vs).length - 1) + 1 = (payload vs).length by omega, hloop, pushLoop,
      if_neg (by omega), ← hlen, values, values, List.flatten_cons, List.map_append,
      List.reverse_append, List.append_nil]
  have hused : (0 : ℤ) < (buf.length : ℤ) := by omega
  have hend : decoderLoop false buf buf.length buf.length true { d with st := .start, size } [] =
      some ([], { d with st := .start, size }) := decoderLoop_end (by omega)
  refine ⟨size, ?_⟩
  rw [decode_of_empty hmem, decoderLoop, if_pos (by omega), List.drop_zero, hpush]
  simp only [Option.bind_eq_bind, Option.bind_some, if_pos hused, if_true, Bool.false_eq_true,
    if_false, Nat.zero_add, Int.toNat_natCast, hend, List.reverse_reverse]
  rfl

/-- **What comes before a lone size is lost.** When a piece ends with the size of a message, and no
other message is cut, the piece calls nothing back and leaves the decoder waiting for this message,
and the script never gets the values of the messages before it. -/
theorem loses_before_size (ms₀ : List (List LuaData)) (vs : List LuaData)
    (ms₁ : List (List LuaData)) (pieces : List (List (List LuaData)))
    (h₀ : ∀ m ∈ ms₀, Message m) (hvs : Message vs) (h₁ : ∀ m ∈ ms₁, Message m)
    (h : ∀ ms ∈ pieces, ms ≠ [] ∧ ∀ m ∈ ms, Message m) :
    decode create (stream ms₀ ++ (serial vs).take 4) =
        some ([], { create with st := .dataStart, size := UInt32.ofNat (payload vs).length }) ∧
      (decodeAll create ((stream ms₀ ++ (serial vs).take 4) ::
          ((serial vs).drop 4 ++ stream ms₁) :: pieces.map stream)).map Prod.fst =
        some (values (vs :: ms₁) :: pieces.map values) := by
  have hdrop : (serial vs).drop 4 = payload vs := List.drop_left' (length_littleEndian 4 _)
  have hfirst := @decode_size create ms₀ vs h₀ rfl rfl
  obtain ⟨size, hsecond⟩ := @decode_sized
    { create with st := .dataStart, size := UInt32.ofNat (payload vs).length } ms₁ vs hvs h₁ rfl
    rfl rfl
  obtain ⟨d', hrun⟩ := @decodeAll_whole { create with st := .start, size } pieces h rfl rfl
  refine ⟨hfirst, ?_⟩
  rw [decodeAll, hfirst, hdrop, Option.bind_eq_bind, Option.bind_some]
  simp only [decodeAll, hsecond, hrun, Option.bind_eq_bind, Option.bind_some]
  rfl

/-- One message is lost, and one is not. -/
theorem loses_before_size_one :
    decode create (stream [[.boolean true]] ++ (serial [.nil, .string [1, 2]]).take 4) =
        some ([], { create with
          st := .dataStart, size := UInt32.ofNat (payload [.nil, .string [1, 2]]).length }) ∧
      (decodeAll create ((stream [[.boolean true]] ++ (serial [.nil, .string [1, 2]]).take 4) ::
          ((serial [.nil, .string [1, 2]]).drop 4 ++ stream []) ::
            [[[.nil, .string [1, 2]]]].map stream)).map Prod.fst =
        some (values [[.nil, .string [1, 2]]] :: [[[.nil, .string [1, 2]]]].map values) := by
  refine loses_before_size [[.boolean true]] [.nil, .string [1, 2]] [] [[[.nil, .string [1, 2]]]]
    (fun m hm => ?_) message_two (fun m hm => absurd hm List.not_mem_nil) fun ms hms => ?_
  · rw [List.mem_singleton.mp hm]
    refine ⟨fun v hv => ?_, by decide⟩
    rw [List.mem_singleton.mp hv]
    trivial
  · rw [List.mem_singleton.mp hms]
    refine ⟨List.cons_ne_nil _ _, fun m hm => ?_⟩
    rw [List.mem_singleton.mp hm]
    exact message_two

end StreamDecoder

end CodeTest.UvLua
