/-
# Keys from the serial line

`src/drivers/serial.c` decodes the bytes that a terminal sends for its keys in the interrupt handler
`serial_callback`, and puts the result in a ring of 256 bytes that `serial_getchar` reads.  The state of
the decoder persists from one interrupt to the next, so that the bytes of a key may be spread over several of them.

The handler is modelled for any way to store a byte.  What it enqueues and how its state goes on
does not depend on that (`serialCallback_store`), and the bytes of several interrupts are decoded like
those of one.  The bytes of a key lead from a decoder that is ready to one that is ready again, and
enqueue what the key stands for (`done_key`); the ring is a queue as long as it has room (`SerialRing.Holds`).
-/

import LighthOS.Lib.Ring
import LighthOS.Lib.System
import Mathlib.Tactic

namespace LighthOS

/-! ### The decoder -/

def keyUp : UInt8 := 0x81
def keyDown : UInt8 := 0x82
def keyLeft : UInt8 := 0x83
def keyRight : UInt8 := 0x84
def keyHome : UInt8 := 0x85
def keyEnd : UInt8 := 0x86
def keyCup : UInt8 := 0x91
def keyCdown : UInt8 := 0x92
def keyCleft : UInt8 := 0x93
def keyCright : UInt8 := 0x94
def keyDel : UInt8 := 0x95

/-- `esc_state`: nothing special, behind an ESC, inside of a CSI sequence. -/
inductive EscState
  | normal
  | esc
  | csi
  deriving DecidableEq

/-- What the handler asks of the foreground process group. -/
inductive ForegroundCall
  | kill
  | stop
  deriving DecidableEq

/-- The variables of `serial.c`, with the bytes stored in a `σ`, and the calls made. -/
structure SerialPort (σ : Type) where
  store : σ
  escState : EscState
  csiMod : ℕ
  csiArg : ℕ
  csiArgIdx : ℕ
  calls : List ForegroundCall

section Callback

variable {σ : Type} (enqueue : σ → UInt8 → σ)

/-- The key that `csi_finish` enqueues for the final byte. -/
def csiKey (ctrl : Bool) (code : ℕ) (final : UInt8) : Option UInt8 :=
  if final = 0x41 then some (if ctrl then keyCup else keyUp)
  else if final = 0x42 then some (if ctrl then keyCdown else keyDown)
  else if final = 0x43 then some (if ctrl then keyCright else keyRight)
  else if final = 0x44 then some (if ctrl then keyCleft else keyLeft)
  else if final = 0x48 then some keyHome
  else if final = 0x46 then some keyEnd
  else if final = 0x7E then
    if code = 1 then some keyHome
    else if code = 3 then some keyDel
    else if code = 4 then some keyEnd
    else none
  else none

/-- `csi_finish`. -/
def csiFinish (s : SerialPort σ) (final : UInt8) : SerialPort σ :=
  let s := if s.csiArgIdx = 1 then { s with csiMod := s.csiArg } else s
  match csiKey (s.csiMod == 5) (if s.csiArgIdx = 0 then s.csiArg else 0) final with
  | none => s
  | some key => { s with store := enqueue s.store key }

/-- `\r` as `\n`, and DEL as `\b`. -/
def cook (c : UInt8) : UInt8 := if c = 0x0D then 0x0A else if c = 0x7F then 0x08 else c

/-- The end of the loop body of `serial_callback`, outside of an escape sequence. -/
def serialPlain (s : SerialPort σ) (c : UInt8) : SerialPort σ :=
  if c = 0x1B then { s with escState := .esc }
  else if c = 0x03 then { s with calls := s.calls ++ [.kill] }
  else if c = 0x1A then { s with calls := s.calls ++ [.stop] }
  else { s with store := enqueue s.store (cook c) }

/-- The loop body of `serial_callback` for the byte `c`. -/
def serialByte (s : SerialPort σ) (c : UInt8) : SerialPort σ :=
  match s.escState with
  | .normal => serialPlain enqueue s c
  | .esc =>
      if c = 0x5B then { s with escState := .csi, csiMod := 0, csiArg := 0, csiArgIdx := 0 }
      else serialPlain enqueue { s with store := enqueue s.store 0x1B, escState := .normal } c
  | .csi =>
      if 0x30 ≤ c ∧ c ≤ 0x39 then { s with csiArg := (s.csiArg * 10 + (c.toNat - 0x30)) % 2 ^ 16 }
      else if c = 0x3B then { s with csiArgIdx := (s.csiArgIdx + 1) % 2 ^ 8, csiArg := 0 }
      else if 0x40 ≤ c ∧ c ≤ 0x7E then { csiFinish enqueue s c with escState := .normal }
      else s

/-- `serial_callback`, for the bytes that the line has ready. -/
def serialCallback (s : SerialPort σ) (bytes : List UInt8) : SerialPort σ := bytes.foldl (serialByte enqueue) s

end Callback

/-- The same variables with another store. -/
def SerialPort.withStore {σ τ : Type} (s : SerialPort τ) (store : σ) : SerialPort σ :=
  ⟨store, s.escState, s.csiMod, s.csiArg, s.csiArgIdx, s.calls⟩

/-- The bytes that `serial_callback` enqueues. -/
def enqueued {σ : Type} (s : SerialPort σ) (bytes : List UInt8) : List UInt8 :=
  (serialCallback (fun l c => l ++ [c]) (s.withStore []) bytes).store

/-- One byte, for any store. -/
theorem serialByte_withStore {σ : Type} (enqueue : σ → UInt8 → σ) (r : σ) (t : SerialPort (List UInt8)) (c : UInt8) :
    serialByte enqueue (t.withStore (t.store.foldl enqueue r)) c
      = (serialByte (fun l c => l ++ [c]) t c).withStore
          ((serialByte (fun l c => l ++ [c]) t c).store.foldl enqueue r) := by
  obtain ⟨l, st, m, a, idx, calls⟩ := t
  have hplain : ∀ l st, serialPlain enqueue ⟨l.foldl enqueue r, st, m, a, idx, calls⟩ c
      = (serialPlain (fun l c => l ++ [c]) ⟨l, st, m, a, idx, calls⟩ c).withStore
          ((serialPlain (fun l c => l ++ [c]) ⟨l, st, m, a, idx, calls⟩ c).store.foldl enqueue r) := by
    intro l st
    unfold serialPlain SerialPort.withStore
    split_ifs <;> simp
  cases st with
  | normal => exact hplain l .normal
  | esc =>
      simp only [serialByte, SerialPort.withStore]
      split_ifs
      · rfl
      · have := hplain (l ++ [0x1B]) .normal
        rw [List.foldl_append, List.foldl_cons, List.foldl_nil] at this
        exact this
  | csi =>
      simp only [serialByte, SerialPort.withStore]
      split_ifs
      · rfl
      · rfl
      · simp only [csiFinish]
        split_ifs
        all_goals
          dsimp only
          generalize csiKey _ _ c = key
          cases key <;> simp
      · rfl

/-- **What the handler enqueues and how it goes on does not depend on the store.** -/
theorem serialCallback_store {σ : Type} (enqueue : σ → UInt8 → σ) (s : SerialPort σ) (bytes : List UInt8) :
    serialCallback enqueue s bytes
      = (serialCallback (fun l c => l ++ [c]) (s.withStore []) bytes).withStore
          ((enqueued s bytes).foldl enqueue s.store) := by
  let view : SerialPort (List UInt8) → SerialPort σ := fun t => t.withStore (t.store.foldl enqueue s.store)
  change bytes.foldl (serialByte enqueue) (view (s.withStore [])) = view _
  exact List.foldl_hom view fun t c => serialByte_withStore enqueue s.store t c

/-! ### Keys -/

/-- The four arrow keys. -/
inductive Arrow
  | up
  | down
  | right
  | left
  deriving DecidableEq

/-- The final byte of an arrow key. -/
def Arrow.final : Arrow → UInt8
  | .up => 0x41
  | .down => 0x42
  | .right => 0x43
  | .left => 0x44

/-- The code of an arrow key, without and with Ctrl. -/
def Arrow.key (ctrl : Bool) : Arrow → UInt8
  | .up => if ctrl then keyCup else keyUp
  | .down => if ctrl then keyCdown else keyDown
  | .right => if ctrl then keyCright else keyRight
  | .left => if ctrl then keyCleft else keyLeft

/-- A key, as a terminal sends it: a byte, an arrow key without or with a modifier, Home and End, or a
number with a tilde.  Numbers are given by their decimal digits. -/
inductive SerialKey
  | plain (c : UInt8)
  | arrow (a : Arrow)
  | home
  | toEnd
  | modified (m : List (Fin 10)) (a : Arrow)
  | tilde (n : List (Fin 10))

/-- The number with the given digits behind those of `v`. -/
def decimalFrom (v : ℕ) (digits : List (Fin 10)) : ℕ := digits.foldl (fun v d => v * 10 + d.val) v

/-- The number with the given digits. -/
def decimal (digits : List (Fin 10)) : ℕ := decimalFrom 0 digits

/-- The bytes of digits. -/
def digitBytes (digits : List (Fin 10)) : List UInt8 := digits.map fun d => UInt8.ofNat (0x30 + d.val)

namespace SerialKey

/-- A byte is none of ESC, Ctrl-C and Ctrl-Z, and a number is below `65536`. -/
def Valid : SerialKey → Prop
  | plain c => c ≠ 0x1B ∧ c ≠ 0x03 ∧ c ≠ 0x1A
  | modified m _ => decimal m < 65536
  | tilde n => decimal n < 65536
  | _ => True

/-- The bytes that are sent for a key. -/
def encode : SerialKey → List UInt8
  | plain c => [c]
  | arrow a => [0x1B, 0x5B, a.final]
  | home => [0x1B, 0x5B, 0x48]
  | toEnd => [0x1B, 0x5B, 0x46]
  | modified m a => [0x1B, 0x5B, 0x31, 0x3B] ++ digitBytes m ++ [a.final]
  | tilde n => [0x1B, 0x5B] ++ digitBytes n ++ [0x7E]

/-- The bytes that a key stands for. -/
def decode : SerialKey → List UInt8
  | plain c => [if c = 0x0D then 0x0A else if c = 0x7F then 0x08 else c]
  | arrow a => [a.key false]
  | home => [keyHome]
  | toEnd => [keyEnd]
  | modified m a => [a.key (decimal m == 5)]
  | tilde n =>
      if decimal n = 1 then [keyHome] else if decimal n = 3 then [keyDel] else if decimal n = 4 then [keyEnd] else []

end SerialKey

/-- The decoder is not inside of a sequence. -/
def SerialPort.Ready {σ : Type} (s : SerialPort σ) : Prop := s.escState = .normal

/-- The digits of a number, inside of a CSI sequence. -/
theorem serialCallback_digits {σ : Type} (enqueue : σ → UInt8 → σ) (digits : List (Fin 10)) (s : SerialPort σ)
    (hs : s.escState = .csi) (v : ℕ) (hv : s.csiArg = v % 2 ^ 16) :
    serialCallback enqueue s (digitBytes digits)
      = { s with csiArg := decimalFrom v digits % 2 ^ 16 } := by
  induction digits generalizing s v with
  | nil =>
      rw [decimalFrom, List.foldl_nil, ← hv]
      rfl
  | cons d digits ih =>
      have hdigit : 0x30 ≤ UInt8.ofNat (0x30 + d.val) ∧ UInt8.ofNat (0x30 + d.val) ≤ 0x39 ∧
          (UInt8.ofNat (0x30 + d.val)).toNat - 0x30 = d.val := by
        revert d
        decide
      have hbyte : serialByte enqueue s (UInt8.ofNat (0x30 + d.val))
          = { s with csiArg := (v * 10 + d.val) % 2 ^ 16 } := by
        simp only [serialByte, hs, hdigit, and_self, if_true, hv]
        congr 1
        rw [Nat.add_mod, Nat.mod_mul_mod, ← Nat.add_mod]
      change serialCallback enqueue (serialByte enqueue s (UInt8.ofNat (0x30 + d.val))) (digitBytes digits) = _
      rw [hbyte]
      exact ih { s with csiArg := (v * 10 + d.val) % 2 ^ 16 } hs (v * 10 + d.val) rfl

section Keys

variable {σ : Type} (enqueue : σ → UInt8 → σ) {s : SerialPort σ}

theorem serialCallback_append (s : SerialPort σ) (l l' : List UInt8) :
    serialCallback enqueue s (l ++ l') = serialCallback enqueue (serialCallback enqueue s l) l' :=
  List.foldl_append

/-- The start of a CSI sequence. -/
theorem serialCallback_csi (hs : s.Ready) :
    serialCallback enqueue s [0x1B, 0x5B]
      = { s with escState := .csi, csiMod := 0, csiArg := 0, csiArgIdx := 0 } := by
  unfold SerialPort.Ready at hs
  simp [serialCallback, serialByte, serialPlain, hs]

/-- The decoder is ready again, and has enqueued `out`. -/
structure SerialPort.Done (s s' : SerialPort σ) (out : List UInt8) : Prop where
  ready : s'.Ready
  store : s'.store = out.foldl enqueue s.store

theorem csiFinish_eq (s : SerialPort σ) (final : UInt8) :
    csiFinish enqueue s final = { s with
      csiMod := if s.csiArgIdx = 1 then s.csiArg else s.csiMod
      store := (csiKey ((if s.csiArgIdx = 1 then s.csiArg else s.csiMod) == 5)
        (if s.csiArgIdx = 0 then s.csiArg else 0) final).toList.foldl enqueue s.store } := by
  unfold csiFinish
  by_cases hidx : s.csiArgIdx = 1
  · simp only [hidx, if_true]
    generalize csiKey _ _ final = key
    cases key <;> simp
  · simp only [hidx, if_false]
    generalize csiKey _ _ final = key
    cases key <;> rfl

/-- The final byte of a CSI sequence. -/
theorem serialByte_final (hs : s.escState = .csi) {final : UInt8} (hfinal : 0x40 ≤ final ∧ final ≤ 0x7E) :
    s.Done enqueue (serialByte enqueue s final)
      (csiKey ((if s.csiArgIdx = 1 then s.csiArg else s.csiMod) == 5)
        (if s.csiArgIdx = 0 then s.csiArg else 0) final).toList := by
  have hdigit : ¬(0x30 ≤ final ∧ final ≤ 0x39) := by
    rintro ⟨-, h⟩
    exact absurd (UInt8.le_trans hfinal.1 h) (by decide)
  have hsemi : final ≠ 0x3B := by
    rintro rfl
    exact absurd hfinal.1 (by decide)
  simp only [serialByte, hs, hdigit, hsemi, hfinal, and_self, if_true, if_false, csiFinish_eq]
  exact ⟨rfl, rfl⟩

/-- A sequence without digits. -/
theorem done_csi (hs : s.Ready) {final : UInt8} (hfinal : 0x40 ≤ final ∧ final ≤ 0x7E) :
    s.Done enqueue (serialCallback enqueue s [0x1B, 0x5B, final]) (csiKey false 0 final).toList := by
  rw [show ([0x1B, 0x5B, final] : List UInt8) = [0x1B, 0x5B] ++ [final] from rfl, serialCallback_append,
    serialCallback_csi enqueue hs]
  have hdone := serialByte_final enqueue
    (s := { s with escState := .csi, csiMod := 0, csiArg := 0, csiArgIdx := 0 }) rfl hfinal
  exact ⟨hdone.ready, hdone.store⟩

theorem Arrow.final_range (a : Arrow) : 0x40 ≤ a.final ∧ a.final ≤ 0x7E := by
  cases a <;> decide

theorem Arrow.csiKey_final (a : Arrow) (ctrl : Bool) (code : ℕ) : csiKey ctrl code a.final = some (a.key ctrl) := by
  cases a <;> rfl

/-- **One key.**  Its bytes lead from a decoder that is ready to one that is ready, and enqueue what it stands
for. -/
theorem done_key (hs : s.Ready) {k : SerialKey} (hk : k.Valid) :
    s.Done enqueue (serialCallback enqueue s k.encode) k.decode := by
  cases k with
  | plain c =>
      obtain ⟨h₁, h₂, h₃⟩ := hk
      unfold SerialPort.Ready at hs
      have hbyte : serialCallback enqueue s (SerialKey.plain c).encode
          = { s with store := enqueue s.store (cook c) } := by
        simp [serialCallback, SerialKey.encode, serialByte, hs, serialPlain, h₁, h₂, h₃]
      rw [hbyte]
      exact ⟨hs, rfl⟩
  | arrow a =>
      have hdone := done_csi enqueue hs a.final_range
      rwa [a.csiKey_final] at hdone
  | home => exact done_csi enqueue hs (by decide)
  | toEnd => exact done_csi enqueue hs (by decide)
  | modified m a =>
      have hstart : serialCallback enqueue s [0x1B, 0x5B, 0x31, 0x3B]
          = { s with escState := .csi, csiMod := 0, csiArg := 0, csiArgIdx := 1 } := by
        rw [show ([0x1B, 0x5B, 0x31, 0x3B] : List UInt8) = [0x1B, 0x5B] ++ [0x31, 0x3B] from rfl,
          serialCallback_append, serialCallback_csi enqueue hs]
        rfl
      have hm : decimalFrom 0 m % 2 ^ 16 = decimal m := Nat.mod_eq_of_lt hk
      rw [SerialKey.encode, serialCallback_append, serialCallback_append, hstart,
        serialCallback_digits enqueue m _ rfl 0 rfl, hm]
      have hdone := serialByte_final enqueue
        (s := { s with escState := .csi, csiMod := 0, csiArg := decimal m, csiArgIdx := 1 }) rfl a.final_range
      rw [a.csiKey_final] at hdone
      exact ⟨hdone.ready, hdone.store⟩
  | tilde n =>
      have hn : decimalFrom 0 n % 2 ^ 16 = decimal n := Nat.mod_eq_of_lt hk
      rw [SerialKey.encode, serialCallback_append, serialCallback_append, serialCallback_csi enqueue hs,
        serialCallback_digits enqueue n _ rfl 0 rfl, hn]
      have hdone := serialByte_final enqueue
        (s := { s with escState := .csi, csiMod := 0, csiArg := decimal n, csiArgIdx := 0 }) rfl
        (show (0x40 : UInt8) ≤ 0x7E ∧ (0x7E : UInt8) ≤ 0x7E by decide)
      have hkey : (csiKey false (decimal n) 0x7E).toList = (SerialKey.tilde n).decode := by
        rw [SerialKey.decode, show csiKey false (decimal n) 0x7E = if decimal n = 1 then some keyHome
          else if decimal n = 3 then some keyDel else if decimal n = 4 then some keyEnd else none from rfl]
        split_ifs <;> rfl
      rw [← hkey]
      exact ⟨hdone.ready, hdone.store⟩

/-- **Several keys.** -/
theorem done_keys {keys : List SerialKey} (hkeys : ∀ k ∈ keys, k.Valid) (hs : s.Ready) :
    s.Done enqueue (serialCallback enqueue s (keys.flatMap SerialKey.encode)) (keys.flatMap SerialKey.decode) := by
  induction keys generalizing s with
  | nil => exact ⟨hs, rfl⟩
  | cons k keys ih =>
      have hkey := done_key enqueue hs (hkeys k List.mem_cons_self)
      have hrest := ih (fun k' hk' => hkeys k' (List.mem_cons_of_mem k hk')) hkey.ready
      rw [List.flatMap_cons, List.flatMap_cons, serialCallback_append]
      refine ⟨hrest.ready, ?_⟩
      rw [hrest.store, hkey.store, List.foldl_append]

end Keys

/-! ### The ring -/

/-- `SERIAL_BUF_SIZE`. -/
def serialBufSize : ℕ := 256

/-- The ring of `serial.c`. -/
structure SerialRing where
  buffer : ℕ → UInt8
  readIdx : ℕ
  writeIdx : ℕ

/-- `serial_enqueue`. -/
def serialEnqueue (r : SerialRing) (c : UInt8) : SerialRing :=
  let next := (r.writeIdx + 1) % serialBufSize
  if next ≠ r.readIdx then { r with buffer := Function.update r.buffer r.writeIdx c, writeIdx := next } else r

/-- `serial_has_data`. -/
def serialHasData (r : SerialRing) : Bool := r.readIdx != r.writeIdx

/-- `serial_getchar`, where there is data: the byte that it returns. -/
def serialGetchar (r : SerialRing) : Option (UInt8 × SerialRing) :=
  if serialHasData r then some (r.buffer r.readIdx, { r with readIdx := (r.readIdx + 1) % serialBufSize })
  else none

/-- The ring holds the bytes of `q`. -/
structure SerialRing.Holds (r : SerialRing) (q : List UInt8) : Prop where
  read : r.readIdx < serialBufSize
  write : r.writeIdx = (r.readIdx + q.length) % serialBufSize
  room : q.length < serialBufSize
  view : Ring.view serialBufSize r.buffer r.readIdx q.length = q

namespace SerialRing.Holds

variable {r : SerialRing} {q : List UInt8}

/-- A byte that has room is stored behind the others. -/
theorem enqueue (h : r.Holds q) (hroom : q.length + 1 < serialBufSize) (c : UInt8) :
    (serialEnqueue r c).Holds (q ++ [c]) := by
  have hnext : (r.writeIdx + 1) % serialBufSize = (r.readIdx + (q.length + 1)) % serialBufSize := by
    rw [h.write, Nat.mod_add_mod, Nat.add_assoc]
  have hfree : (r.writeIdx + 1) % serialBufSize ≠ r.readIdx := by
    rw [hnext]
    have hne : (r.readIdx + 0) % serialBufSize ≠ (r.readIdx + (q.length + 1)) % serialBufSize :=
      Ring.add_mod_ne serialBufSize (Nat.succ_pos q.length) hroom
    rw [Nat.add_zero, Nat.mod_eq_of_lt h.read] at hne
    exact hne.symm
  rw [serialEnqueue, if_pos hfree]
  refine ⟨h.read, ?_, ?_, ?_⟩
  · rw [List.length_append]
    exact hnext
  · rw [List.length_append]
    exact hroom
  · rw [List.length_append, List.length_singleton]
    have hview := Ring.view_update serialBufSize r.buffer r.readIdx h.room c
    rw [h.view, ← h.write] at hview
    exact hview

/-- Bytes that have room are stored behind the others. -/
theorem foldl_enqueue (h : r.Holds q) {l : List UInt8} (hroom : q.length + l.length < serialBufSize) :
    (l.foldl serialEnqueue r).Holds (q ++ l) := by
  induction l generalizing r q with
  | nil => simpa using h
  | cons c l ih =>
      rw [List.length_cons] at hroom
      have hrest := ih (h.enqueue (by omega) c) (by rw [List.length_append, List.length_singleton]; omega)
      rwa [List.append_assoc, List.singleton_append] at hrest

/-- The first byte is the one that is returned. -/
theorem getchar {r' : SerialRing} {c : UInt8} (h : r.Holds q) (hget : serialGetchar r = some (c, r')) :
    ∃ q', q = c :: q' ∧ r'.Holds q' := by
  unfold serialGetchar serialHasData at hget
  split_ifs at hget with hdata
  cases q with
  | nil =>
      have hwrite := h.write
      rw [List.length_nil, Nat.add_zero, Nat.mod_eq_of_lt h.read] at hwrite
      simp [hwrite] at hdata
  | cons b q =>
      have hview := h.view
      have hwrite := h.write
      have hroom := h.room
      rw [List.length_cons] at hview hwrite hroom
      rw [Nat.add_comm q.length 1, Ring.view_add] at hview
      simp only [Ring.view, List.range_one, List.map_cons, List.map_nil, Nat.add_zero,
        Nat.mod_eq_of_lt h.read, List.singleton_append, List.cons.injEq] at hview
      simp only [Option.some.injEq, Prod.mk.injEq] at hget
      obtain ⟨rfl, rfl⟩ := hget
      refine ⟨q, by rw [hview.1], ⟨Nat.mod_lt _ (by decide), ?_, by omega, hview.2⟩⟩
      dsimp only
      rw [hwrite, Nat.mod_add_mod, Nat.add_assoc, Nat.add_comm 1]

end SerialRing.Holds

/-! ### Interrupts and readers -/

/-- What happens: an interrupt with the bytes that the line has ready, or a call of `serial_getchar`. -/
inductive SerialOp
  | interrupt (bytes : List UInt8)
  | getchar

/-- The bytes that an interrupt brings. -/
def SerialOp.bytes : SerialOp → List UInt8
  | interrupt bytes => bytes
  | getchar => []

/-- The driver, and the bytes that were read so far. -/
structure SerialRun where
  port : SerialPort SerialRing
  out : List UInt8

/-- The driver after `serial_init`. -/
def serialInit : SerialRun := ⟨⟨⟨fun _ => 0, 0, 0⟩, .normal, 0, 0, 0, []⟩, []⟩

/-- One step; `serial_getchar` waits while there is no data. -/
def serialStep (s : SerialRun) : SerialOp → Option SerialRun
  | .interrupt bytes => some { s with port := serialCallback serialEnqueue s.port bytes }
  | .getchar => (serialGetchar s.port.store).map fun r =>
      ⟨{ s.port with store := r.2 }, s.out ++ [r.1]⟩

/-- The number of bytes in the ring. -/
def SerialRing.count (r : SerialRing) : ℕ := (r.writeIdx + serialBufSize - r.readIdx) % serialBufSize

/-- The bytes in the ring, in order. -/
def SerialRing.queue (r : SerialRing) : List UInt8 := Ring.view serialBufSize r.buffer r.readIdx r.count

/-- The ring has room for what an interrupt enqueues. -/
def SerialOp.HasRoom (s : SerialRun) : SerialOp → Prop
  | interrupt bytes => s.port.store.count + (enqueued s.port bytes).length < serialBufSize
  | getchar => True

instance (s : SerialRun) (op : SerialOp) : Decidable (op.HasRoom s) := by
  cases op
  · exact Nat.decLt _ _
  · exact instDecidableTrue

/-- A step that leaves the ring unfilled. -/
def serialStepWithRoom (s : SerialRun) (op : SerialOp) : Option SerialRun :=
  if op.HasRoom s then serialStep s op else none

theorem SerialRing.Holds.count_eq {r : SerialRing} {q : List UInt8} (h : r.Holds q) : r.count = q.length := by
  have hread := h.read
  have hwrite := h.write
  have hroom := h.room
  unfold SerialRing.count serialBufSize at *
  omega

theorem SerialRing.Holds.queue_eq {r : SerialRing} {q : List UInt8} (h : r.Holds q) : r.queue = q := by
  rw [SerialRing.queue, h.count_eq, h.view]

theorem foldl_concat (l₀ l : List UInt8) : l.foldl (fun l c => l ++ [c]) l₀ = l₀ ++ l := by
  induction l generalizing l₀ with
  | nil => simp
  | cons c l ih => rw [List.foldl_cons, ih, List.append_assoc, List.singleton_append]

/-- The driver has decoded what the decoder `t`, which only records, has decoded: the bytes that were read
and those in the ring. -/
structure SerialRun.Records (s : SerialRun) (t : SerialPort (List UInt8)) : Prop where
  state : s.port = t.withStore s.port.store
  ring : s.port.store.Holds s.port.store.queue
  bytes : s.out ++ s.port.store.queue = t.store

/-- **One step.** -/
theorem SerialRun.Records.step {s s' : SerialRun} {t : SerialPort (List UInt8)} (h : s.Records t) {op : SerialOp}
    (hstep : serialStepWithRoom s op = some s') :
    s'.Records (serialCallback (fun l c => l ++ [c]) t op.bytes) := by
  unfold serialStepWithRoom at hstep
  split_ifs at hstep with hroom
  cases op with
  | interrupt bytes =>
      cases hstep
      have hsame : s.port.withStore ([] : List UInt8) = t.withStore [] := by
        rw [h.state]
        rfl
      have hport := serialCallback_store serialEnqueue s.port bytes
      have hlog := serialCallback_store (fun l c => l ++ [c]) t bytes
      rw [foldl_concat, enqueued, ← hsame] at hlog
      rw [SerialOp.HasRoom, h.ring.count_eq] at hroom
      have hring := h.ring.foldl_enqueue hroom
      have hstore : (serialCallback serialEnqueue s.port bytes).store
          = (enqueued s.port bytes).foldl serialEnqueue s.port.store := by
        rw [hport]
        rfl
      refine ⟨?_, ?_, ?_⟩
      · rw [SerialOp.bytes, hlog, hport]
        rfl
      · dsimp only
        rwa [hstore, hring.queue_eq]
      · dsimp only
        rw [hstore, hring.queue_eq, ← List.append_assoc, h.bytes, SerialOp.bytes, hlog]
        rfl
  | getchar =>
      simp only [serialStep, Option.map_eq_some_iff] at hstep
      obtain ⟨⟨c, r⟩, hget, rfl⟩ := hstep
      obtain ⟨q, hq, hr⟩ := h.ring.getchar hget
      have hqueue : r.queue = q := hr.queue_eq
      refine ⟨?_, ?_, ?_⟩
      · change ({ s.port with store := r } : SerialPort SerialRing) = t.withStore r
        rw [h.state]
        rfl
      · dsimp only
        rwa [hqueue]
      · dsimp only
        rw [hqueue, List.append_assoc, List.singleton_append, ← hq]
        exact h.bytes

/-- **A whole run.** -/
theorem SerialRun.Records.run {ops : List SerialOp} {s s' : SerialRun} {t : SerialPort (List UInt8)}
    (h : s.Records t) (hrun : System.exec serialStepWithRoom s ops = some s') :
    s'.Records (serialCallback (fun l c => l ++ [c]) t (ops.flatMap SerialOp.bytes)) := by
  induction ops generalizing s t with
  | nil =>
      cases hrun
      exact h
  | cons op ops ih =>
      rw [System.exec, Option.bind_eq_some_iff] at hrun
      obtain ⟨s₁, hstep, hrest⟩ := hrun
      rw [List.flatMap_cons, serialCallback_append]
      exact ih (h.step hstep) hrest

/-- **Keys are decoded exactly, however their bytes are split.**  When the interrupts of a run bring the bytes of
a sequence of keys, in any portions and with calls of `serial_getchar` in between, and the ring is never filled,
then the bytes that were read followed by those still in the ring are what the keys stand for, in order; once
there is no more data, they are the bytes that were read. -/
theorem serial_keys_exact (keys : List SerialKey) (hkeys : ∀ k ∈ keys, k.Valid) (ops : List SerialOp)
    (hops : ops.flatMap SerialOp.bytes = keys.flatMap SerialKey.encode) (s : SerialRun)
    (hrun : System.exec serialStepWithRoom serialInit ops = some s) :
    s.out ++ s.port.store.queue = keys.flatMap SerialKey.decode ∧
      (serialHasData s.port.store = false → s.out = keys.flatMap SerialKey.decode) := by
  have hinit : serialInit.Records ⟨[], .normal, 0, 0, 0, []⟩ :=
    ⟨rfl, ⟨by decide, rfl, by decide, rfl⟩, rfl⟩
  have hend := hinit.run hrun
  rw [hops] at hend
  have hdone := done_keys (fun l c => l ++ [c]) hkeys (s := ⟨[], .normal, 0, 0, 0, []⟩) rfl
  have hall : s.out ++ s.port.store.queue = keys.flatMap SerialKey.decode := by
    rw [hend.bytes, hdone.store, foldl_concat]
    rfl
  refine ⟨hall, fun hempty => ?_⟩
  have hcount : s.port.store.count = 0 := by
    rw [serialHasData, bne_eq_false_iff_eq] at hempty
    rw [SerialRing.count, ← hempty, Nat.add_sub_cancel_left, Nat.mod_self]
  rw [← hall, SerialRing.queue, hcount, Ring.view_zero, List.append_nil]

/-- The hypotheses of `serial_keys_exact` are satisfiable: Ctrl with the up arrow, spread over two interrupts,
and Delete. -/
theorem serial_keys_exact_two : ∃ s, System.exec serialStepWithRoom serialInit
    [.interrupt [0x1B, 0x5B, 0x31, 0x3B], .interrupt [0x35, 0x41, 0x1B], .getchar, .interrupt [0x5B, 0x33, 0x7E]]
      = some s ∧ s.out ++ s.port.store.queue = [keyCup, keyDel] := by
  obtain ⟨s, hs⟩ := Option.isSome_iff_exists.1 (show (System.exec serialStepWithRoom serialInit
    [.interrupt [0x1B, 0x5B, 0x31, 0x3B], .interrupt [0x35, 0x41, 0x1B], .getchar,
      .interrupt [0x5B, 0x33, 0x7E]]).isSome = true by decide +kernel)
  have hkeys : ∀ k ∈ [SerialKey.modified [5] .up, .tilde [3]], k.Valid :=
    List.forall_mem_cons.2 ⟨(by decide : decimal [5] < 65536),
      List.forall_mem_singleton.2 (by decide : decimal [3] < 65536)⟩
  exact ⟨s, hs, (serial_keys_exact _ hkeys _ rfl s hs).1⟩

end LighthOS
