import Mathlib.Data.List.Basic
import Mathlib.Data.List.TakeWhile
import Mathlib.Tactic.Ring

/-!
The trace a signal handler prints: `capture_stack_addresses` and `print_raw_stack_from_here`.

The handler has no heap, so the addresses go into an array and the text into a buffer of fixed
sizes. Whatever the stack, the text comes out whole and in one write, and the addresses can be
read off it.
-/

namespace Fpag.Debug

/-! ## Capturing -/

/-- `StackTrace::MAX_TRACE_DEPTH`. -/
def maxTraceDepth : Nat := 256

/-- `UnwindState`, with `frames` for the `count` entries of the array that are filled. -/
structure UnwindState : Type where
  frames : List (BitVec 64)
  maxDepth : Nat
  skip : Nat

/-- `unwind_callback_libgcc`, and whether the walk goes on. -/
def unwindCallbackLibgcc (s : UnwindState) (ip : BitVec 64) : UnwindState × Bool :=
  if ip = 0 then (s, false)
  else if 0 < s.skip then ({ s with skip := s.skip - 1 }, true)
  else if s.maxDepth ≤ s.frames.length then (s, false)
  else ({ s with frames := s.frames ++ [ip] }, true)

/-- `_Unwind_Backtrace` over the addresses of a stack, the innermost first. -/
def unwindBacktrace (s : UnwindState) : List (BitVec 64) → UnwindState
  | [] => s
  | ip :: stack =>
      match unwindCallbackLibgcc s ip with
      | (s, true) => unwindBacktrace s stack
      | (s, false) => s

/-- `capture_stack_addresses_libgcc`. -/
def captureStackAddressesLibgcc (stack : List (BitVec 64)) (maxDepth skip : Nat) :
    List (BitVec 64) :=
  (unwindBacktrace ⟨[], maxDepth, skip⟩ stack).frames

/-- The loop of `capture_stack_addresses_libunwind`, from the frame the cursor is at; `none` is a
frame whose register cannot be read. A skipped frame goes to the condition of the loop. -/
def libunwindLoop (maxDepth : Nat) : Nat → List (BitVec 64) → List (Option (BitVec 64)) →
    List (BitVec 64)
  | _, frames, [] => frames
  | skip + 1, frames, _ :: stack => libunwindLoop maxDepth skip frames stack
  | 0, frames, ip :: stack =>
      if maxDepth ≤ frames.length then frames
      else
        match ip with
        | none => frames
        | some ip =>
            if ip = 0 then frames else libunwindLoop maxDepth 0 (frames ++ [ip]) stack

/-- `capture_stack_addresses_libunwind`; `ready` says that the context and the cursor are there. -/
def captureStackAddressesLibunwind (ready : Bool) (stack : List (Option (BitVec 64)))
    (maxDepth skip : Nat) : List (BitVec 64) :=
  if ready then libunwindLoop maxDepth skip [] stack else []

/-- `capture_stack_addresses_posix`, where `backtrace` fills a buffer of 512 entries. -/
def captureStackAddressesPosix (stack : List (BitVec 64)) (maxDepth skip : Nat) :
    List (BitVec 64) :=
  let fetchCount := if maxDepth + skip < 512 then maxDepth + skip else 512
  let captured := stack.take fetchCount
  if captured.length ≤ skip then []
  else
    let available := captured.length - skip
    let count := if available < maxDepth then available else maxDepth
    (captured.drop skip).take count

/-! ## Printing -/

/-- `RAW_BUFFER_BYTES`. -/
def rawBufferBytes : Nat := 4096

/-- The part of the buffer that is used. -/
structure RawBuffer : Type where
  text : List Char
  fits : text.length ≤ rawBufferBytes

namespace RawBuffer

def empty : RawBuffer := ⟨[], Nat.zero_le _⟩

/-- `append_text`: what there is room for. -/
def appendText (b : RawBuffer) (text : List Char) : RawBuffer where
  text := b.text ++ text.take (rawBufferBytes - b.text.length)
  fits := by
    have := b.fits
    rw [List.length_append, List.length_take]
    omega

end RawBuffer

/-- `HEX_DIGITS`. -/
def hexDigits : List Char := "0123456789abcdef".toList

/-- The loop of `append_hex`: the digits from the last one on. The array for them has as many
entries as there is fuel. -/
def hexLoop : Nat → BitVec 64 → List Char
  | 0, _ => []
  | fuel + 1, value =>
      (hexDigits[(value &&& 0xF#64).toNat]?).toList ++
        if value >>> 4 = 0 then [] else hexLoop fuel (value >>> 4)

/-- `append_hex`. -/
def RawBuffer.appendHex (b : RawBuffer) (value : BitVec 64) : RawBuffer :=
  (hexLoop 16 value).reverse.foldl (fun b digit => b.appendText [digit]) (b.appendText ['0', 'x'])

/-- The buffer, and the texts that have been written. -/
structure RawPrint : Type where
  buffer : RawBuffer
  written : List (List Char)

/-- What a turn of the loop of `print_raw_stack_from_here` appends. -/
def RawBuffer.appendFrame (b : RawBuffer) (i : Nat) (address : BitVec 64) : RawBuffer :=
  let b := b.appendText "  #".toList
  let b := b.appendHex (BitVec.ofNat 64 i)
  let b := b.appendText "  ".toList
  let b := b.appendHex address
  b.appendText ['\n']

/-- One turn of the loop of `print_raw_stack_from_here`. -/
def RawPrint.frame (p : RawPrint) (i : Nat) (address : BitVec 64) : RawPrint :=
  let buffer := p.buffer.appendFrame i address
  if rawBufferBytes < buffer.text.length + (2 * 8 * 2 + 8) then
    ⟨.empty, p.written ++ [buffer.text]⟩
  else ⟨buffer, p.written⟩

/-- The loop of `print_raw_stack_from_here`, from the frame with index `i` on. -/
def RawPrint.frames (p : RawPrint) : Nat → List (BitVec 64) → RawPrint
  | _, [] => p
  | i, address :: rest => (p.frame i address).frames (i + 1) rest

def rawHeader : List Char := "stack (raw, unresolved):\n".toList

def RawPrint.start : RawPrint := ⟨RawBuffer.empty.appendText rawHeader, []⟩

/-- `print_raw_stack_from_here`, from the captured addresses on: the writes to the descriptor. -/
def printRawStack (frames : List (BitVec 64)) : List (List Char) :=
  let p := RawPrint.start.frames 0 frames
  p.written ++ [p.buffer.text]

/-- `print_raw_stack_from_here` where the capture is that of libgcc: 64 frames, two skipped. -/
def printRawStackFromHere (stack : List (BitVec 64)) : List (List Char) :=
  printRawStack (captureStackAddressesLibgcc stack 64 2)

/-! ## What is captured -/

theorem takeWhile_nonzero {ip : BitVec 64} (nonzero : ip ≠ 0) (stack : List (BitVec 64)) :
    (ip :: stack).takeWhile (· ≠ 0) = ip :: stack.takeWhile (· ≠ 0) :=
  List.takeWhile_cons_of_pos (decide_eq_true nonzero)

theorem unwindBacktrace_frames {s : UnwindState} (room : s.frames.length ≤ s.maxDepth)
    (stack : List (BitVec 64)) :
    (unwindBacktrace s stack).frames = s.frames ++
      ((stack.takeWhile (· ≠ 0)).drop s.skip).take (s.maxDepth - s.frames.length) := by
  induction stack generalizing s with
  | nil => simp [unwindBacktrace]
  | cons ip stack ih =>
      rw [unwindBacktrace, unwindCallbackLibgcc]
      by_cases last : ip = 0
      · simp [last]
      rw [if_neg last, takeWhile_nonzero last]
      cases skip : s.skip with
      | succ k =>
          rw [if_pos (Nat.succ_pos k), List.drop_succ_cons]
          exact ih (s := { s with skip := k }) room
      | zero =>
          rw [if_neg (Nat.lt_irrefl 0), List.drop_zero]
          by_cases full : s.maxDepth ≤ s.frames.length
          · rw [if_pos full, Nat.sub_eq_zero_of_le full, List.take_zero, List.append_nil]
          · rw [if_neg full]
            have more : s.maxDepth - s.frames.length =
                (s.maxDepth - (s.frames ++ [ip]).length) + 1 := by
              rw [List.length_append, List.length_singleton]
              omega
            have room' : (s.frames ++ [ip]).length ≤ s.maxDepth := by
              rw [List.length_append, List.length_singleton]
              omega
            have next := ih (s := { s with frames := s.frames ++ [ip] }) room'
            rw [skip, List.drop_zero] at next
            rw [more, List.take_succ_cons, next, List.append_assoc, List.singleton_append]

theorem captureStackAddressesLibgcc_eq (stack : List (BitVec 64)) (maxDepth skip : Nat) :
    captureStackAddressesLibgcc stack maxDepth skip =
      ((stack.takeWhile (· ≠ 0)).drop skip).take maxDepth := by
  rw [captureStackAddressesLibgcc, unwindBacktrace_frames (Nat.zero_le _)]
  rfl

theorem libunwindLoop_eq (maxDepth skip : Nat) {frames : List (BitVec 64)}
    (room : frames.length ≤ maxDepth) (stack : List (BitVec 64)) :
    libunwindLoop maxDepth skip frames (stack.map some) = frames ++
      ((stack.drop skip).takeWhile (· ≠ 0)).take (maxDepth - frames.length) := by
  induction stack generalizing skip frames with
  | nil => simp [libunwindLoop]
  | cons ip stack ih =>
      cases skip with
      | succ skip => exact ih skip room
      | zero =>
          rw [List.map_cons, libunwindLoop, List.drop_zero]
          by_cases full : maxDepth ≤ frames.length
          · rw [if_pos full, Nat.sub_eq_zero_of_le full, List.take_zero, List.append_nil]
          · rw [if_neg full]
            by_cases last : ip = 0
            · simp [last]
            · have more : maxDepth - frames.length =
                  (maxDepth - (frames ++ [ip]).length) + 1 := by
                rw [List.length_append, List.length_singleton]
                omega
              have room' : (frames ++ [ip]).length ≤ maxDepth := by
                rw [List.length_append, List.length_singleton]
                omega
              have next := ih 0 room'
              rw [List.drop_zero] at next
              rw [if_neg last, takeWhile_nonzero last, more, List.take_succ_cons, next,
                List.append_assoc, List.singleton_append]

theorem captureStackAddressesPosix_eq (stack : List (BitVec 64)) {maxDepth skip : Nat}
    (fits : maxDepth + skip ≤ 512) :
    captureStackAddressesPosix stack maxDepth skip = (stack.drop skip).take maxDepth := by
  unfold captureStackAddressesPosix
  have fetched : (if maxDepth + skip < 512 then maxDepth + skip else 512) = skip + maxDepth := by
    split <;> omega
  simp only [fetched, List.drop_take, Nat.add_sub_cancel_left, List.length_take]
  split
  · symm
    rw [List.take_eq_nil_iff, List.drop_eq_nil_iff]
    omega
  · rw [List.take_take, List.take_eq_take_iff, List.length_drop]
    split <;> omega

/-- However the stack is walked, the same addresses are captured: those behind the skipped frames,
as many as are asked for. Whatever `init` lets through fits the buffer of `backtrace`. -/
theorem capture_agrees {stack : List (BitVec 64)} (nonzero : ∀ ip ∈ stack, ip ≠ 0)
    {depth skip : Nat} (deep : depth ≤ maxTraceDepth) (shallow : skip ≤ depth) :
    captureStackAddressesLibgcc stack depth skip = (stack.drop skip).take depth ∧
      captureStackAddressesLibunwind true (stack.map some) depth skip =
        (stack.drop skip).take depth ∧
      captureStackAddressesPosix stack depth skip = (stack.drop skip).take depth := by
  have whole : ∀ l : List (BitVec 64), (∀ ip ∈ l, ip ≠ 0) → l.takeWhile (· ≠ 0) = l := by
    intro l all
    rw [List.takeWhile_eq_self_iff]
    exact fun ip member => decide_eq_true (all ip member)
  refine ⟨?_, ?_, ?_⟩
  · rw [captureStackAddressesLibgcc_eq, whole stack nonzero]
  · rw [captureStackAddressesLibunwind, if_pos rfl, libunwindLoop_eq depth skip (Nat.zero_le _),
      whole _ fun ip member => nonzero ip (List.mem_of_mem_drop member)]
    rfl
  · apply captureStackAddressesPosix_eq
    rw [maxTraceDepth] at deep
    omega

/-- Two functions of a program below the two of the trace. -/
theorem capture_agrees_twoSkipped :
    captureStackAddressesLibgcc [1, 2, 3, 4] 64 2 = [3, 4] ∧
      captureStackAddressesLibunwind true [some 1, some 2, some 3, some 4] 64 2 = [3, 4] ∧
      captureStackAddressesPosix [1, 2, 3, 4] 64 2 = [3, 4] := by
  have nonzero : ∀ ip ∈ [1#64, 2#64, 3#64, 4#64], ip ≠ 0 := by simp
  exact capture_agrees nonzero (by decide) (by decide)

/-! ## What is printed -/

/-- A number as it is printed. -/
def hexText (n : Nat) : List Char := ['0', 'x'] ++ Nat.toDigits 16 n

/-- The line of a frame. -/
def rawLine (i : Nat) (address : BitVec 64) : List Char :=
  "  #".toList ++ hexText i ++ "  ".toList ++ hexText address.toNat ++ ['\n']

def rawLines : Nat → List (BitVec 64) → List Char
  | _, [] => []
  | i, address :: rest => rawLine i address ++ rawLines (i + 1) rest

/-- The text of a raw trace. -/
def rawText (frames : List (BitVec 64)) : List Char := rawHeader ++ rawLines 0 frames

theorem hexDigits_getElem? : ∀ d < 16, hexDigits[d]? = some (Nat.digitChar d) := by decide

/-- The loop is over when the digits are, and the array holds them all. -/
theorem hexLoop_eq {fuel : Nat} {value : BitVec 64} (pos : 0 < fuel)
    (fits : value.toNat < 16 ^ fuel) :
    hexLoop fuel value = (Nat.toDigits 16 value.toNat).reverse := by
  induction fuel generalizing value with
  | zero => cases pos
  | succ fuel ih =>
      have low : (value &&& 0xF#64).toNat = value.toNat % 16 := by
        rw [BitVec.toNat_and]
        exact Nat.and_two_pow_sub_one_eq_mod value.toNat 4
      have high : (value >>> 4).toNat = value.toNat / 16 := by
        rw [BitVec.toNat_ushiftRight, Nat.shiftRight_eq_div_pow]
      have digit := hexDigits_getElem? (value.toNat % 16) (Nat.mod_lt _ (by decide))
      rw [hexLoop, low, digit, Nat.toDigits_eq_if (by decide)]
      by_cases small : value.toNat < 16
      · have over_ : value >>> 4 = 0 := by
          apply BitVec.eq_of_toNat_eq
          rw [high, Nat.div_eq_of_lt small]
          rfl
        rw [if_pos over_, if_pos small, Nat.mod_eq_of_lt small]
        rfl
      · have more : value >>> 4 ≠ 0 := by
          intro zero
          rw [zero] at high
          have none_ : value.toNat / 16 = 0 := high.symm
          omega
        have rest : (value >>> 4).toNat < 16 ^ fuel := by
          rw [high]
          rw [Nat.pow_succ] at fits
          omega
        have left : 0 < fuel := by
          rcases Nat.eq_zero_or_pos fuel with none_ | some_
          · rw [none_] at fits
            omega
          · exact some_
        rw [if_neg more, if_neg small, ih left rest, high, List.reverse_append]
        rfl

namespace RawBuffer

/-- `b'` is `b` with the text behind it, where there is room for it. -/
def Appends (b : RawBuffer) (text : List Char) (b' : RawBuffer) : Prop :=
  b.text.length + text.length ≤ rawBufferBytes → b'.text = b.text ++ text

theorem Appends.trans {b b' b'' : RawBuffer} {text more : List Char}
    (first : b.Appends text b') (second : b'.Appends more b'') :
    b.Appends (text ++ more) b'' := by
  intro room
  rw [List.length_append] at room
  have front : b'.text = b.text ++ text := first (by omega)
  have back : b''.text = b'.text ++ more := by
    apply second
    rw [front, List.length_append]
    omega
  rw [back, front, List.append_assoc]

theorem appendText_appends (b : RawBuffer) (text : List Char) :
    b.Appends text (b.appendText text) :=
  fun room => congrArg (b.text ++ ·) (List.take_of_length_le (by omega))

theorem appendDigits_appends (b : RawBuffer) (digits : List Char) :
    b.Appends digits (digits.foldl (fun b digit => b.appendText [digit]) b) := by
  induction digits generalizing b with
  | nil => exact fun _ => (List.append_nil _).symm
  | cons digit digits ih => exact (b.appendText_appends [digit]).trans (ih _)

theorem appendHex_appends (b : RawBuffer) (value : BitVec 64) :
    b.Appends (hexText value.toNat) (b.appendHex value) := by
  have digits : (hexLoop 16 value).reverse = Nat.toDigits 16 value.toNat := by
    rw [hexLoop_eq (by decide) value.isLt, List.reverse_reverse]
  rw [appendHex, digits]
  exact (b.appendText_appends ['0', 'x']).trans (appendDigits_appends _ _)

theorem appendFrame_appends (b : RawBuffer) {i : Nat} (small : i < 2 ^ 64)
    (address : BitVec 64) : b.Appends (rawLine i address) (b.appendFrame i address) := by
  have index := appendHex_appends (b.appendText "  #".toList) (BitVec.ofNat 64 i)
  rw [BitVec.toNat_ofNat, Nat.mod_eq_of_lt small] at index
  have number := (b.appendText_appends "  #".toList).trans index
  have blank := number.trans (appendText_appends _ "  ".toList)
  have shown := blank.trans (appendHex_appends _ address)
  exact shown.trans (appendText_appends _ ['\n'])

end RawBuffer

theorem length_hexText {n k : Nat} (pos : 0 < k) (small : n < 16 ^ k) :
    (hexText n).length ≤ 2 + k := by
  rw [hexText, List.length_append, List.length_cons, List.length_singleton]
  have := (Nat.length_toDigits_le_iff (by decide) pos).mpr small
  omega

theorem length_rawLine {i : Nat} (small : i < 64) (address : BitVec 64) :
    (rawLine i address).length ≤ 28 := by
  have index := length_hexText (n := i) (k := 2) (by decide) (by omega)
  have digits := length_hexText (n := address.toNat) (k := 16) (by decide) address.isLt
  simp only [rawLine, List.length_append, List.length_singleton, String.length_toList]
  change 3 + _ + 2 + _ + 1 ≤ 28
  omega

/-- A line is printed whole, and nothing is written while there is room for another. -/
theorem RawPrint.frame_eq {p : RawPrint} {i : Nat} (small : i < 64) (address : BitVec 64)
    (room : p.buffer.text.length + 28 + 40 ≤ rawBufferBytes) :
    (p.frame i address).buffer.text = p.buffer.text ++ rawLine i address ∧
      (p.frame i address).written = p.written := by
  have line := length_rawLine small address
  have text : (p.buffer.appendFrame i address).text = p.buffer.text ++ rawLine i address :=
    p.buffer.appendFrame_appends (by omega) address (by omega)
  have stays : ¬ rawBufferBytes <
      (p.buffer.appendFrame i address).text.length + (2 * 8 * 2 + 8) := by
    rw [text, List.length_append]
    omega
  have frame : p.frame i address = ⟨p.buffer.appendFrame i address, p.written⟩ := if_neg stays
  rw [frame]
  exact ⟨text, rfl⟩

/-- Sixty-four lines fit. -/
theorem RawPrint.frames_eq {p : RawPrint} {i : Nat} {frames : List (BitVec 64)}
    (few : i + frames.length ≤ 64)
    (room : p.buffer.text.length + 28 * frames.length + 40 ≤ rawBufferBytes) :
    (p.frames i frames).buffer.text = p.buffer.text ++ rawLines i frames ∧
      (p.frames i frames).written = p.written := by
  induction frames generalizing p i with
  | nil => exact ⟨(List.append_nil _).symm, rfl⟩
  | cons address rest ih =>
      rw [List.length_cons] at few room
      obtain ⟨text, written⟩ := p.frame_eq (i := i) (by omega) address (by omega)
      have line := length_rawLine (i := i) (by omega) address
      have next := ih (p := p.frame i address) (i := i + 1) (by omega) (by
        rw [text, List.length_append]
        omega)
      rw [text, written, List.append_assoc] at next
      exact next

theorem printRawStack_eq {frames : List (BitVec 64)} (few : frames.length ≤ 64) :
    printRawStack frames = [rawText frames] := by
  have header : RawPrint.start.buffer.text = rawHeader :=
    RawBuffer.appendText_appends _ _ (by decide)
  have room : RawPrint.start.buffer.text.length + 28 * frames.length + 40 ≤ rawBufferBytes := by
    rw [header]
    change 25 + _ + _ ≤ 4096
    omega
  obtain ⟨text, written⟩ := RawPrint.start.frames_eq (i := 0) (by omega) room
  rw [printRawStack, written, text, header]
  rfl

/-! ## Reading the addresses off a trace -/

theorem toDigits_snoc (n : Nat) :
    Nat.toDigits 16 n =
      (if n < 16 then [] else Nat.toDigits 16 (n / 16)) ++ [Nat.digitChar (n % 16)] := by
  rw [Nat.toDigits_eq_if (by decide)]
  split
  · next small => rw [Nat.mod_eq_of_lt small, List.nil_append]
  · rfl

theorem digitChar_injective : ∀ d < 16, ∀ e < 16, Nat.digitChar d = Nat.digitChar e → d = e := by
  decide

theorem digitChar_ne_newline : ∀ d < 16, Nat.digitChar d ≠ '\n' := by decide

theorem toDigits_injective {n m : Nat} (same : Nat.toDigits 16 n = Nat.toDigits 16 m) :
    n = m := by
  induction n using Nat.strong_induction_on generalizing m with
  | _ n ih =>
      rw [toDigits_snoc n, toDigits_snoc m] at same
      obtain ⟨fronts, lasts⟩ := List.append_inj' same rfl
      have digit : n % 16 = m % 16 :=
        digitChar_injective _ (Nat.mod_lt _ (by decide)) _ (Nat.mod_lt _ (by decide))
          (List.singleton_inj.mp lasts)
      split at fronts <;> split at fronts
      · omega
      · exact absurd fronts.symm Nat.toDigits_ne_nil
      · exact absurd fronts Nat.toDigits_ne_nil
      · have quotient := ih (n / 16) (by omega) fronts
        omega

theorem newline_notMem_toDigits (n : Nat) : '\n' ∉ Nat.toDigits 16 n := by
  induction n using Nat.strong_induction_on with
  | _ n ih =>
      rw [toDigits_snoc, List.mem_append, List.mem_singleton]
      intro member
      rcases member with front | last
      · split at front
        · cases front
        · exact ih (n / 16) (by omega) front
      · exact digitChar_ne_newline _ (Nat.mod_lt _ (by decide)) last.symm

/-- The first newline of a text is where two texts are told apart. -/
theorem split_at_newline {front front' rest rest' : List Char} (clean : '\n' ∉ front)
    (clean' : '\n' ∉ front') (same : front ++ '\n' :: rest = front' ++ '\n' :: rest') :
    front = front' ∧ rest = rest' := by
  induction front generalizing front' with
  | nil =>
      cases front' with
      | nil => exact ⟨rfl, (List.cons.inj same).2⟩
      | cons c cs =>
          rw [← (List.cons.inj same).1] at clean'
          exact absurd List.mem_cons_self clean'
  | cons c cs ih =>
      cases front' with
      | nil =>
          rw [(List.cons.inj same).1] at clean
          exact absurd List.mem_cons_self clean
      | cons c' cs' =>
          obtain ⟨first, others⟩ := List.cons.inj same
          obtain ⟨cs_eq, rest_eq⟩ := ih (fun member => clean (List.mem_cons_of_mem _ member))
            (fun member => clean' (List.mem_cons_of_mem _ member)) others
          exact ⟨by rw [first, cs_eq], rest_eq⟩

/-- A line ends at its newline, and shows its address. -/
theorem rawLine_append_inj {i : Nat} {address address' : BitVec 64} {rest rest' : List Char}
    (same : rawLine i address ++ rest = rawLine i address' ++ rest') :
    address = address' ∧ rest = rest' := by
  simp only [rawLine, hexText, List.append_assoc, List.append_cancel_left_eq,
    List.singleton_append] at same
  obtain ⟨digits, others⟩ :=
    split_at_newline (newline_notMem_toDigits _) (newline_notMem_toDigits _) same
  exact ⟨BitVec.eq_of_toNat_eq (toDigits_injective digits), others⟩

theorem rawLines_injective {i : Nat} {frames frames' : List (BitVec 64)}
    (same : rawLines i frames = rawLines i frames') : frames = frames' := by
  induction frames generalizing i frames' with
  | nil =>
      cases frames' with
      | nil => rfl
      | cons address' rest' => cases same
  | cons address rest ih =>
      cases frames' with
      | nil => cases same
      | cons address' rest' =>
          obtain ⟨first, others⟩ := rawLine_append_inj same
          rw [first, ih others]

/-- The frames of a stack that a raw trace is about: the sixty-four outside of the handler and of
the function it calls, as far as the stack goes. -/
def rawFrames (stack : List (BitVec 64)) : List (BitVec 64) :=
  ((stack.takeWhile (· ≠ 0)).drop 2).take 64

/-- Whatever the stack, the trace is written at once and whole, and its frames can be read off
it. -/
theorem raw_trace_of_stack (stack other : List (BitVec 64)) :
    printRawStackFromHere stack = [rawText (rawFrames stack)] ∧
      (printRawStackFromHere stack = printRawStackFromHere other ↔
        rawFrames stack = rawFrames other) := by
  have printed : ∀ s, printRawStackFromHere s = [rawText (rawFrames s)] := by
    intro s
    rw [printRawStackFromHere, captureStackAddressesLibgcc_eq]
    exact printRawStack_eq (List.length_take_le _ _)
  refine ⟨printed stack, ?_⟩
  rw [printed stack, printed other, List.singleton_inj]
  constructor
  · intro same
    exact rawLines_injective (List.append_cancel_left same)
  · intro same
    rw [same]

end Fpag.Debug
