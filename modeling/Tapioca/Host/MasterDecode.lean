-- SUMMARY: What the MDIO master drives, the host decoders read back: one event per request.
import Tapioca.Mdio.MasterLedger
import Tapioca.Host.DecoderParity

/-!
# The sniffer decodes what the master drives

The line of a command is 32 ones and the frame, of which the PHY drives the
turnaround and the data on a read. The frames a decoder finds on the line of a
sequence of requests are their transactions, and the folder turns those of one
request into its event, whatever earlier requests left in it.
-/

namespace Tapioca.Host

open Lib.Bits Mdio

/-! ## The line -/

/-- The 32 bits the blob shifts out, first command byte first. -/
def commandBits (c : Command) : List Bool :=
  toBits 8 c.cmd0.toNat ++ toBits 8 c.cmd1.toNat ++ toBits 8 c.cmd2.toNat ++ toBits 8 c.cmd3.toNat

/-- MDIO during a command. On a read the PHY drives the turnaround low and then
its 16 data bits. -/
def commandLine (data : UInt16) (c : Command) : List Bool :=
  List.replicate 32 true ++
    if c.ctrl &&& CTRL_READ ≠ 0 then
      (commandBits c).take 14 ++ [false, false] ++ toBits 16 data.toNat
    else commandBits c

theorem toNat_and_low5 (v : UInt8) : (v &&& 0x1F).toNat = v.toNat % 32 := by
  rw [UInt8.toNat_and]
  exact Nat.and_two_pow_sub_one_eq_mod v.toNat 5

/-- Fields next to each other: the OR of the shifted fields is their sum. -/
theorem or_fields {op phy reg ta data : Nat} (hop : op < 4) (hphy : phy < 32) (hreg : reg < 32)
    (hta : ta < 4) (hdata : data < 2 ^ 16) :
    2 ^ 30 ||| (2 ^ 28 * op ||| (2 ^ 23 * phy ||| (2 ^ 18 * reg ||| (2 ^ 16 * ta ||| data)))) =
      2 ^ 30 + (2 ^ 28 * op + (2 ^ 23 * phy + (2 ^ 18 * reg + (2 ^ 16 * ta + data)))) := by
  have h4 := Nat.two_pow_add_eq_or_of_lt hdata ta
  have h3 := Nat.two_pow_add_eq_or_of_lt (i := 18) (b := 2 ^ 16 * ta + data) (by omega) reg
  have h2 := Nat.two_pow_add_eq_or_of_lt (i := 23) (b := 2 ^ 18 * reg + (2 ^ 16 * ta + data)) (by omega) phy
  have h1 := Nat.two_pow_add_eq_or_of_lt (i := 28)
    (b := 2 ^ 23 * phy + (2 ^ 18 * reg + (2 ^ 16 * ta + data))) (by omega) op
  have h0 := Nat.two_pow_add_eq_or_of_lt (i := 30)
    (b := 2 ^ 28 * op + (2 ^ 23 * phy + (2 ^ 18 * reg + (2 ^ 16 * ta + data)))) (by omega) 1
  rw [mul_one] at h0
  rw [← h4, ← h3, ← h2, ← h1, ← h0]

theorem toNat_shiftLeft_field {x : UInt32} {m : Nat} (k : Nat) (hk : k < 32) (hx : x.toNat = m)
    (h : 2 ^ k * m < 2 ^ 32) : (x <<< UInt32.ofNat k).toNat = 2 ^ k * m := by
  rw [UInt32.toNat_shiftLeft, hx, UInt32.toNat_ofNat', Nat.mod_eq_of_lt (by omega : k < 2 ^ 32),
    Nat.mod_eq_of_lt hk, Nat.shiftLeft_eq, mul_comm, Nat.mod_eq_of_lt h]

/-- The frame word is the sum of its fields. -/
theorem frame_toNat (isRead : Bool) (phy reg : UInt8) (val : UInt16) :
    (frame isRead phy reg val).toNat =
      2 ^ 30 + (2 ^ 28 * (if isRead then 2 else 1) + (2 ^ 23 * (phy.toNat % 32) +
        (2 ^ 18 * (reg.toNat % 32) + (2 ^ 16 * (if isRead then 0 else 2) +
          if isRead then 0 else val.toNat)))) := by
  have hphy := Nat.mod_lt phy.toNat (by decide : 0 < 32)
  have hreg := Nat.mod_lt reg.toNat (by decide : 0 < 32)
  have hp : ((phy &&& 0x1F).toUInt32 <<< 23).toNat = 2 ^ 23 * (phy.toNat % 32) :=
    toNat_shiftLeft_field 23 (by omega) (by rw [UInt8.toNat_toUInt32, toNat_and_low5]) (by omega)
  have hr : ((reg &&& 0x1F).toUInt32 <<< 18).toNat = 2 ^ 18 * (reg.toNat % 32) :=
    toNat_shiftLeft_field 18 (by omega) (by rw [UInt8.toNat_toUInt32, toNat_and_low5]) (by omega)
  rw [frame]
  simp only [UInt32.toNat_or, hp, hr, Nat.or_assoc]
  cases isRead with
  | false => exact or_fields (by decide : 1 < 4) hphy hreg (by decide : 2 < 4) val.toNat_lt
  | true => exact or_fields (by decide : 2 < 4) hphy hreg (by decide : 0 < 4) (by decide : 0 < 2 ^ 16)

theorem commandBits_command (isRead : Bool) (phy reg : UInt8) (val : UInt16) :
    commandBits (command isRead phy reg val) = toBits 32 (frame isRead phy reg val).toNat := by
  have hbyte : ∀ (v : UInt32) (k : Nat), k < 32 →
      toBits 8 (v >>> UInt32.ofNat k).toUInt8.toNat = toBits 8 (v.toNat / 2 ^ k) := by
    intro v k hk
    rw [UInt32.toNat_toUInt8, toBits_mod le_rfl, UInt32.toNat_shiftRight, UInt32.toNat_ofNat',
      Nat.mod_eq_of_lt (by omega : k < 2 ^ 32), Nat.mod_eq_of_lt hk, Nat.shiftRight_eq_div_pow]
  rw [commandBits, command]
  generalize frame isRead phy reg val = v
  have h24 := hbyte v 24 (by omega)
  have h16 := hbyte v 16 (by omega)
  have h8 := hbyte v 8 (by omega)
  have h0 : toBits 8 v.toUInt8.toNat = toBits 8 v.toNat := by
    rw [UInt32.toNat_toUInt8, toBits_mod le_rfl]
  have hsplit : toBits 32 v.toNat = toBits 8 (v.toNat / 2 ^ 24) ++ toBits 8 (v.toNat / 2 ^ 16) ++
      toBits 8 (v.toNat / 2 ^ 8) ++ toBits 8 v.toNat := by
    have hlow := toBits_add 24 8 v.toNat
    have hmid := toBits_add 16 8 (v.toNat / 2 ^ 8)
    have hhigh := toBits_add 8 8 (v.toNat / 2 ^ 8 / 2 ^ 8)
    rw [hlow, hmid, hhigh]
    simp only [Nat.div_div_eq_div_mul, ← pow_add]
  rw [hsplit, ← h24, ← h16, ← h8, ← h0]
  rfl

/-! ## The frame on the line -/

/-- A frame written out field by field. -/
def frameBits (op phy reg ta data : Nat) : List Bool :=
  toBits 2 1 ++ toBits 2 op ++ toBits 5 phy ++ toBits 5 reg ++ toBits 2 ta ++ toBits 16 data

theorem length_frameBits (op phy reg ta data : Nat) : (frameBits op phy reg ta data).length = 32 := by
  simp [frameBits]

/-- The decoded form of a transaction, with the PHY's data on a read. -/
def frameOf (t : Transaction) (data : UInt16) : Frame where
  op := if t.isRead then OP_R else OP_W
  phyad := t.phy.toNat % 32
  regad := t.reg.toNat % 32
  ta := if t.isRead then 0 else 2
  data := if t.isRead then data.toNat else t.val.toNat
  preamble := 32
  noResponse := false

theorem ofBits_frameBits {op phy reg ta data : Nat} (hop : op < 4) (hphy : phy < 32) (hreg : reg < 32)
    (hta : ta < 4) (hdata : data < 2 ^ 16) :
    ofBits (frameBits op phy reg ta data) =
      2 ^ 30 + (2 ^ 28 * op + (2 ^ 23 * phy + (2 ^ 18 * reg + (2 ^ 16 * ta + data)))) := by
  simp only [frameBits, ofBits_append, ofBits_toBits, length_toBits]
  omega

theorem toBits_fields {op phy reg ta data : Nat} (hop : op < 4) (hphy : phy < 32) (hreg : reg < 32)
    (hta : ta < 4) (hdata : data < 2 ^ 16) :
    toBits 32 (2 ^ 30 + (2 ^ 28 * op + (2 ^ 23 * phy + (2 ^ 18 * reg + (2 ^ 16 * ta + data))))) =
      frameBits op phy reg ta data := by
  rw [← ofBits_frameBits hop hphy hreg hta hdata]
  have h := toBits_ofBits (frameBits op phy reg ta data)
  rwa [length_frameBits] at h

/-- The field between two stretches of the line. -/
theorem field_between {a b : List Bool} (c : List Bool) {lo hi : Nat} (hlo : a.length = lo)
    (hhi : lo + b.length = hi) : field (a ++ b ++ c) lo hi = ofBits b := by
  subst hlo hhi
  rw [field, List.take_left' (by simp), List.drop_left' rfl]

theorem frameIn_frameBits {op phy reg ta data : Nat} (hop : op < 4) (hphy : phy < 32) (hreg : reg < 32)
    (hta : ta < 3) (hdata : data < 2 ^ 16) (ones : Nat) (rest : List Bool) :
    frameIn (frameBits op phy reg ta data ++ rest) ones =
      { op, phyad := phy, regad := reg, ta, data, preamble := ones, noResponse := false } := by
  rw [frameIn_append _ _ (by rw [length_frameBits])]
  have hfield : ∀ (a b c : List Bool) (lo hi v : Nat), a ++ b ++ c = frameBits op phy reg ta data →
      a.length = lo → lo + b.length = hi → ofBits b = v →
      field (frameBits op phy reg ta data) lo hi = v := by
    rintro a b c lo hi v habc hlo hhi rfl
    rw [← habc, field_between c hlo hhi]
  have hopField : field (frameBits op phy reg ta data) 2 4 = op :=
    hfield (toBits 2 1) (toBits 2 op) (toBits 5 phy ++ (toBits 5 reg ++ (toBits 2 ta ++ toBits 16 data)))
      2 4 op (by simp [frameBits]) (by simp) (by simp) (by rw [ofBits_toBits]; omega)
  have hphyField : field (frameBits op phy reg ta data) 4 9 = phy :=
    hfield (toBits 2 1 ++ toBits 2 op) (toBits 5 phy) (toBits 5 reg ++ (toBits 2 ta ++ toBits 16 data))
      4 9 phy (by simp [frameBits]) (by simp) (by simp) (by rw [ofBits_toBits]; omega)
  have hregField : field (frameBits op phy reg ta data) 9 14 = reg :=
    hfield (toBits 2 1 ++ toBits 2 op ++ toBits 5 phy) (toBits 5 reg) (toBits 2 ta ++ toBits 16 data)
      9 14 reg (by simp [frameBits]) (by simp) (by simp) (by rw [ofBits_toBits]; omega)
  have htaField : field (frameBits op phy reg ta data) 14 16 = ta :=
    hfield (toBits 2 1 ++ toBits 2 op ++ toBits 5 phy ++ toBits 5 reg) (toBits 2 ta) (toBits 16 data)
      14 16 ta (by simp [frameBits]) (by simp) (by simp) (by rw [ofBits_toBits]; omega)
  have hdataField : field (frameBits op phy reg ta data) 16 32 = data :=
    hfield (toBits 2 1 ++ toBits 2 op ++ toBits 5 phy ++ toBits 5 reg ++ toBits 2 ta) (toBits 16 data) []
      16 32 data (by simp [frameBits]) (by simp) (by simp) (by rw [ofBits_toBits]; omega)
  have hdriven : ta ≠ 3 := by omega
  simp [frameIn, hopField, hphyField, hregField, htaField, hdataField, hdriven]

theorem command_ctrl (isRead : Bool) (phy reg : UInt8) (val : UInt16) :
    (command isRead phy reg val).ctrl &&& CTRL_READ ≠ 0 ↔ isRead = true := by
  have hctrl : (command isRead phy reg val).ctrl = (if isRead then CTRL_READ else 0) ||| CTRL_GO := rfl
  rw [hctrl]
  cases isRead <;> decide

/-- The line of a command is 32 ones and its frame. -/
theorem commandLine_command (t : Transaction) (data : UInt16) :
    commandLine data t.command = List.replicate 32 true ++
      frameBits (if t.isRead then 2 else 1) (t.phy.toNat % 32) (t.reg.toNat % 32)
        (if t.isRead then 0 else 2) (if t.isRead then data.toNat else t.val.toNat) := by
  have hphy := Nat.mod_lt t.phy.toNat (by decide : 0 < 32)
  have hreg := Nat.mod_lt t.reg.toNat (by decide : 0 < 32)
  have hctrl := command_ctrl t.isRead t.phy t.reg t.val
  rw [commandLine, Transaction.command, if_congr hctrl rfl rfl, commandBits_command, frame_toNat]
  cases t.isRead with
  | false =>
    have hbits := toBits_fields (by decide : 1 < 4) hphy hreg (by decide : 2 < 4) t.val.toNat_lt
    exact congrArg (List.replicate 32 true ++ ·) hbits
  | true =>
    have hbits := toBits_fields (by decide : 2 < 4) hphy hreg (by decide : 0 < 4) (by decide : 0 < 2 ^ 16)
    have hta : [false, false] = toBits 2 0 := by decide
    simp only [if_true]
    rw [hbits, hta, frameBits, List.append_assoc _ (toBits 2 0) (toBits 16 0), List.take_left' (by simp)]
    rfl

theorem hunt_ones (ones k : Nat) (bits : List Bool) :
    hunt ones (List.replicate k true ++ bits) = hunt (ones + k) bits := by
  induction k generalizing ones with
  | zero => rfl
  | succ k ih => rw [List.replicate_succ, List.cons_append, hunt_true, ih, Nat.add_right_comm]; rfl

/-- A line that opens a frame starts with a zero. -/
theorem hunt_locks {ones : Nat} {bits : List Bool} (h : Locks ones bits) :
    hunt ones bits = (frameIn bits ones, bits.drop 32) :: hunt 0 (bits.drop 32) := by
  have hst := h.2.2
  cases bits with
  | nil => cases hst
  | cons b bits =>
    cases b with
    | false => rw [hunt_lock _ _ h, List.drop_succ_cons]
    | true =>
      have hlen := h.2.1
      rw [List.length_cons] at hlen
      rw [List.take_succ_cons, ofBits_cons_true, List.length_take, Nat.min_eq_left (by omega)] at hst
      omega

/-- The hunt takes one frame per transaction. -/
theorem hunt_commandLine (t : Transaction) (data : UInt16) (rest : List Bool) :
    hunt 0 (commandLine data t.command ++ rest) = (frameOf t data, rest) :: hunt 0 rest := by
  have hphy := Nat.mod_lt t.phy.toNat (by decide : 0 < 32)
  have hreg := Nat.mod_lt t.reg.toNat (by decide : 0 < 32)
  have hlocks : Locks 32 (frameBits (if t.isRead then 2 else 1) (t.phy.toNat % 32) (t.reg.toNat % 32)
      (if t.isRead then 0 else 2) (if t.isRead then data.toNat else t.val.toNat) ++ rest) := by
    refine ⟨le_rfl, by rw [List.length_append, length_frameBits]; omega, ?_⟩
    simp [frameBits, ofBits_toBits]
  rw [commandLine_command, List.append_assoc, hunt_ones, hunt_locks hlocks,
    List.drop_left' (length_frameBits _ _ _ _ _),
    frameIn_frameBits (by split <;> omega) hphy hreg (by split <;> omega) ?_]
  · rfl
  · split
    · exact data.toNat_lt
    · exact t.val.toNat_lt

/-! ## One request -/

/-- A request that a client may make: PHY and MMD addresses of 5 bits, and a
Clause-22 register of 5 bits. -/
def InRange (q : Request) : Prop :=
  q.phy.toNat ≤ 31 ∧
    match q.op with
    | .read | .write => q.reg.toNat ≤ 31
    | .readMmd | .writeMmd => q.mmd.toNat ≤ 31

/-- The data of a request: what the PHY supplies on a read, what is written otherwise. -/
def requestData (q : Request) (data : UInt16) : Nat :=
  if q.isRead then data.toNat else q.val.toNat

def requestOp (q : Request) : Nat := if q.isRead then OP_R else OP_W

/-- What the decoder is to report for one request: one MMD event, or one
Clause-22 event unless the register is one of the two the MMD mechanism uses. -/
def Answers (q : Request) (data : UInt16) (events : List Event) : Prop :=
  match q.op with
  | .readMmd | .writeMmd =>
    events = [⟨q.phy.toNat, some q.mmd.toNat, some q.reg.toNat, requestOp q, some (requestData q data), false⟩]
  | .read | .write =>
    if q.reg.toNat = REG_MMD_CTRL ∨ q.reg.toNat = REG_MMD_DATA then events.length ≤ 1
    else events = [⟨q.phy.toNat, none, some q.reg.toNat, requestOp q, some (requestData q data), false⟩]

/-- The two control words of an MMD access: its device, and function 0 or 1. -/
theorem mmd_control_words {mmd : UInt8} (h : mmd.toNat ≤ 31) :
    ((MMD_ADDR ||| (mmd &&& 0x1F).toUInt16).toNat >>> 14 &&& 0b11 = 0b00 ∧
      (MMD_ADDR ||| (mmd &&& 0x1F).toUInt16).toNat &&& 0x1F = mmd.toNat) ∧
    (MMD_DATA ||| (mmd &&& 0x1F).toUInt16).toNat >>> 14 &&& 0b11 = 0b01 ∧
      (MMD_DATA ||| (mmd &&& 0x1F).toUInt16).toNat &&& 0x1F = mmd.toNat := by
  obtain ⟨n, hn, rfl⟩ : ∃ n, n ≤ 31 ∧ mmd = UInt8.ofNat n :=
    ⟨mmd.toNat, h, (UInt8.ofNat_toNat).symm⟩
  interval_cases n <;> decide

theorem regad_masked {reg : UInt16} (h : reg.toNat ≤ 31) :
    (reg &&& 0x1F).toUInt8.toNat % 32 = reg.toNat := by
  rw [UInt16.toNat_toUInt8, UInt16.toNat_and]
  have hmask : reg.toNat &&& (0x1F : UInt16).toNat = reg.toNat % 2 ^ 5 :=
    Nat.and_two_pow_sub_one_eq_mod reg.toNat 5
  rw [hmask]
  omega

/-- A frame to a register outside the MMD mechanism is reported as it is. -/
theorem feed_plain (m : MdioLib.MmdFolder) {fr : Frame} (hctrl : fr.regad ≠ REG_MMD_CTRL)
    (hdata : fr.regad ≠ REG_MMD_DATA) : m.feed fr = (m, some (MdioLib.MmdFolder.event fr)) := by
  rw [MdioLib.MmdFolder.feed]
  dsimp only
  rw [if_neg (fun h => hctrl h.1), if_neg hdata]

theorem length_feedAll_singleton (m : MdioLib.MmdFolder) (fr : Frame) :
    (m.feedAll [fr]).2.length ≤ 1 := by
  simp only [MdioLib.MmdFolder.feedAll, List.append_nil]
  cases (m.feed fr).2 <;> simp

/-- REGCR, ADDAR, REGCR, ADDAR: the control words select the device, the first
ADDAR write its register, and the last frame is the access. -/
theorem feedAll_mmd (m : MdioLib.MmdFolder) {devad w₀ w₁ : Nat} (phy addr op data ta₀ ta₁ ta₂ ta₃ : Nat)
    (hfunc₀ : w₀ >>> 14 &&& 0b11 = 0b00) (hdevad₀ : w₀ &&& 0x1F = devad)
    (hfunc₁ : w₁ >>> 14 &&& 0b11 = 0b01) (hdevad₁ : w₁ &&& 0x1F = devad) :
    (m.feedAll
      [⟨OP_W, phy, REG_MMD_CTRL, ta₀, w₀, 32, false⟩, ⟨OP_W, phy, REG_MMD_DATA, ta₁, addr, 32, false⟩,
       ⟨OP_W, phy, REG_MMD_CTRL, ta₂, w₁, 32, false⟩, ⟨op, phy, REG_MMD_DATA, ta₃, data, 32, false⟩]).2 =
      [⟨phy, some devad, some addr, op, some data, false⟩] := by
  simp [MdioLib.MmdFolder.feedAll, MdioLib.MmdFolder.feed, hfunc₀, hdevad₀, hfunc₁, hdevad₁,
    REG_MMD_CTRL, REG_MMD_DATA]

/-- The folder reports one request's frames as the request, whatever it holds. -/
theorem feedAll_request (m : MdioLib.MmdFolder) {q : Request} (h : InRange q) (data : UInt16) :
    Answers q data (m.feedAll (q.transactions.map (frameOf · data))).2 := by
  obtain ⟨op, phy, mmd, reg, val, resp⟩ := q
  obtain ⟨hphy, hrange⟩ := h
  simp only at hphy
  have hphyad : phy.toNat % 32 = phy.toNat := by omega
  cases op
  case read | write =>
    have hreg : reg.toNat ≤ 31 := hrange
    have hregad := regad_masked hreg
    simp only [Answers, Request.transactions, List.map_cons, List.map_nil]
    split
    · exact length_feedAll_singleton _ _
    · rename_i hplain
      obtain ⟨hctrl, hdata⟩ := not_or.mp hplain
      rw [← hregad] at hctrl hdata
      rw [MdioLib.MmdFolder.feedAll, feed_plain m hctrl hdata]
      simp only [MdioLib.MmdFolder.feedAll, MdioLib.MmdFolder.event, frameOf, hregad, hphyad]
      rfl
  case readMmd | writeMmd =>
    obtain ⟨⟨hfunc₀, hdevad₀⟩, hfunc₁, hdevad₁⟩ := mmd_control_words hrange
    simp only [Answers, Request.transactions, List.map_cons, List.map_nil, frameOf, hphyad]
    exact feedAll_mmd m phy.toNat reg.toNat _ _ 2 2 2 _ hfunc₀ hdevad₀ hfunc₁ hdevad₁

/-! ## Sequences of requests -/

/-- MDIO during a sequence of sessions, each with the data the PHY supplies. -/
def masterLine (sessions : List (Session × UInt16)) : List Bool :=
  sessions.flatMap fun p => (started p.1.log).flatMap (commandLine p.2)

/-- The frames of some transactions come first, in order. -/
theorem hunt_transactions (ts : List Transaction) (data : UInt16) (rest : List Bool) :
    (hunt 0 ((ts.map Transaction.command).flatMap (commandLine data) ++ rest)).map (·.1) =
      ts.map (frameOf · data) ++ (hunt 0 rest).map (·.1) := by
  induction ts with
  | nil => rfl
  | cons t ts ih =>
    rw [List.map_cons, List.flatMap_cons, List.append_assoc, hunt_commandLine, List.map_cons, ih]
    rfl

theorem feedAll_append (m : MdioLib.MmdFolder) (a b : List Frame) :
    (m.feedAll (a ++ b)).2 = (m.feedAll a).2 ++ ((m.feedAll a).1.feedAll b).2 := by
  induction a generalizing m with
  | nil => rfl
  | cons fr a ih =>
    simp only [List.cons_append, MdioLib.MmdFolder.feedAll]
    rw [ih, List.append_assoc]

theorem feedAll_sessions (m : MdioLib.MmdFolder) {sessions : List (Session × UInt16)}
    (hdone : ∀ p ∈ sessions, p.1.Ended ∧ p.1.answer.status = .done)
    (hrange : ∀ p ∈ sessions, InRange p.1.request) :
    ∃ events : List (List Event),
      List.Forall₂ (fun p es => Answers p.1.request p.2 es) sessions events ∧
        (m.feedAll ((hunt 0 (masterLine sessions)).map (·.1))).2 = events.flatten := by
  induction sessions generalizing m with
  | nil => exact ⟨[], .nil, by simp [masterLine, MdioLib.MmdFolder.feedAll]⟩
  | cons p sessions ih =>
    obtain ⟨⟨hended, hok⟩, hdone⟩ := List.forall_mem_cons.mp hdone
    obtain ⟨hq, hrange⟩ := List.forall_mem_cons.mp hrange
    have hline : masterLine (p :: sessions) =
        (p.1.request.transactions.map Transaction.command).flatMap (commandLine p.2) ++
          masterLine sessions := by
      rw [masterLine, List.flatMap_cons, hended.started_eq hok]
      rfl
    obtain ⟨events, hanswers, hevents⟩ :=
      ih (m.feedAll (p.1.request.transactions.map (frameOf · p.2))).1 hdone hrange
    refine ⟨_ :: events, .cons (feedAll_request m hq p.2) hanswers, ?_⟩
    rw [hline, hunt_transactions, feedAll_append, hevents, List.flatten_cons]

/-- What both decoders find on the line of these sessions. -/
theorem sessions_decoded {sessions : List (Session × UInt16)}
    (hdone : ∀ p ∈ sessions, p.1.Ended ∧ p.1.answer.status = .done)
    (hrange : ∀ p ∈ sessions, InRange p.1.request) :
    ∃ events : List (List Event),
      List.Forall₂ (fun p es => Answers p.1.request p.2 es) sessions events ∧
        (MdioLib.MmdFolder.feedAll {} (MdioLib.decodeBits (masterLine sessions))).2 = events.flatten ∧
        (MdioCodec.MmdFolder.feedAll {} (MdioCodec.decodeBits (masterLine sessions))).2 =
          events.flatten := by
  obtain ⟨events, hanswers, hevents⟩ := feedAll_sessions {} hdone hrange
  refine ⟨events, hanswers, ?_, ?_⟩
  · rw [lib_decodeBits]
    exact hevents
  · have hfolder := codecFolder_feedAll {} ((hunt 0 (masterLine sessions)).map (·.1))
    rw [codec_decodeBits, ← hevents]
    exact congrArg Prod.snd hfolder

/-- From the line of any sequence of requests that were all answered Done, the
decoders recover one event per request, in order, with its PHY, register,
direction and data; raw accesses to the two MMD registers give at most one. -/
theorem sniffer_decodes_master {sessions : List (Session × UInt16)}
    (hdone : ∀ p ∈ sessions, p.1.Ended ∧ p.1.answer.status = .done)
    (hrange : ∀ p ∈ sessions, InRange p.1.request) :
    ∃ events : List (List Event),
      List.Forall₂ (fun p es => Answers p.1.request p.2 es) sessions events ∧
        (MdioLib.MmdFolder.feedAll {} (MdioLib.decodeBits (masterLine sessions))).2 = events.flatten ∧
        (MdioCodec.MmdFolder.feedAll {} (MdioCodec.decodeBits (masterLine sessions))).2 =
          events.flatten :=
  sessions_decoded hdone hrange

/-- A raw write to REGCR and then an MMD read of PHY 1, both answered Done. -/
def rawThenMmd : List (Session × UInt16) :=
  [(⟨⟨.write, 1, 0, 13, 0x4007, 0⟩, [.answered ⟨ST_OK, 0, 0⟩]⟩, 0),
   (⟨⟨.readMmd, 1, 31, 0x0300, 0, 0⟩, List.replicate 4 (.answered ⟨ST_OK, 0x12, 0x34⟩)⟩, 0x1234)]

theorem rawThenMmd_decoded : ∃ events : List (List Event),
    List.Forall₂ (fun p es => Answers p.1.request p.2 es) rawThenMmd events ∧
      (MdioLib.MmdFolder.feedAll {} (MdioLib.decodeBits (masterLine rawThenMmd))).2 = events.flatten ∧
      (MdioCodec.MmdFolder.feedAll {} (MdioCodec.decodeBits (masterLine rawThenMmd))).2 =
        events.flatten := by
  refine sniffer_decodes_master (fun p hp => ?_) (fun p hp => ?_)
  · rcases List.mem_cons.mp hp with rfl | hp
    · exact ⟨⟨[], _, rfl, ⟨nofun, by decide⟩, fun _ => rfl⟩, rfl⟩
    · obtain rfl := List.mem_singleton.mp hp
      exact ⟨⟨List.replicate 3 (.answered ⟨ST_OK, 0x12, 0x34⟩), _, rfl,
        ⟨fun o ho => List.eq_of_mem_replicate ho ▸ rfl, by decide⟩, fun _ => rfl⟩, rfl⟩
  · rcases List.mem_cons.mp hp with rfl | hp
    · exact ⟨by decide, by decide⟩
    · obtain rfl := List.mem_singleton.mp hp
      exact ⟨by decide, by decide⟩

/-- The sessions of a run of the master, once it is idle, are all it has put on the bus; where
they were all answered Done, the decoders recover its requests from their line. -/
theorem run_decoded (before : Nat → Response) (evs : List Mdio.Event) {sessions : List (Session × UInt16)}
    (hidle : (Lib.Lts.run Master.event (.begin before) evs).active = false)
    (hrun : sessions.map Prod.fst = (Lib.Lts.run Ledger.event {} evs).past)
    (hdone : ∀ p ∈ sessions, p.1.answer.status = .done) (hrange : ∀ p ∈ sessions, InRange p.1.request) :
    (sessions.flatMap fun p => started p.1.log) =
        started (Lib.Lts.run Master.event (.begin before) evs).log ∧
      ∃ events : List (List Event),
        List.Forall₂ (fun p es => Answers p.1.request p.2 es) sessions events ∧
          (MdioLib.MmdFolder.feedAll {} (MdioLib.decodeBits (masterLine sessions))).2 = events.flatten ∧
          (MdioCodec.MmdFolder.feedAll {} (MdioCodec.decodeBits (masterLine sessions))).2 =
            events.flatten := by
  have hkeeps := Lib.Lts.run_simulates (R := Keeps before) (fun _ _ ev h => h.event ev) (keeps_begin before) evs
  constructor
  · have hclosed : (Lib.Lts.run Ledger.event {} evs).current = none := by
      rw [← Option.isNone_iff_eq_none, ← Option.isSome_eq_false_iff, ← hkeeps.active, hidle]
    rw [hkeeps.log, Ledger.log, hclosed, ← hrun, Ledger.openLog, List.append_nil, started_sessions,
      List.map_map, List.flatMap_def]
    rfl
  · refine sessions_decoded (fun p hp => ⟨hkeeps.ended _ ?_, hdone p hp⟩) hrange
    rw [← hrun]
    exact List.mem_map_of_mem hp

end Tapioca.Host
