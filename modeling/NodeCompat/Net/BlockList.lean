import Mathlib.Data.Set.Basic
import NodeCompat.Lib.BigEndian
import NodeCompat.Net.IpText

/-!
# Block lists

`BlockList` of node:net: its rules, their test against an address, and their text form. Addresses are compared as 16 bytes, an
IPv4 address as the one it is mapped to: their tests are tests of 128-bit numbers (`netIpCompare_eq`, `netIpInSubnet_iff`).

Port and flow label of a `SocketAddress` play no part.
-/

namespace NodeCompat.Net

inductive IPVersion
  | ipv4 | ipv6
  deriving DecidableEq

/-- The number in a rule's text. -/
def IPVersion.number : IPVersion → Nat
  | .ipv4 => 4
  | .ipv6 => 6

inductive NodeArgumentError
  | invalidAddress | invalidArgValue | outOfRange
  deriving DecidableEq

variable (inet : Inet)

/-! ## The native part -/

/-- `input` without its scope. -/
def numericPart (input : Bytes) : Bytes :=
  match find [percent] input with
  | none => input
  | some scope => input.take scope

/-- `net_normalize_ip` -/
def netNormalizeIp (input : Bytes) : IPVersion → Bytes
  | .ipv4 => if netIsIp inet input = 4 then input else []
  | .ipv6 =>
    match inet.pton6 (cString (numericPart input)) with
    | none => []
    | some address => inet.ntop6 address

def parseComparableIp (input : Bytes) : IPVersion → Option Bytes
  | .ipv4 =>
    if netIsIp inet input ≠ 4 then none
    else (inet.pton4 (cString input)).map (fun address => List.replicate 10 0 ++ [0xff, 0xff] ++ address)
  | .ipv6 => inet.pton6 (cString (numericPart input))

/-- The sign of `memcmp` of as many bytes as both have. -/
def memcmp : Bytes → Bytes → Int
  | x :: xs, y :: ys => if x < y then -1 else if x > y then 1 else memcmp xs ys
  | _, _ => 0

/-- `net_ip_compare`: 2 when one of them is no address. -/
def netIpCompare (left : Bytes) (leftFamily : IPVersion) (right : Bytes) (rightFamily : IPVersion) : Int :=
  match parseComparableIp inet left leftFamily, parseComparableIp inet right rightFamily with
  | some leftBytes, some rightBytes => memcmp leftBytes rightBytes
  | _, _ => 2

/-- The upper bits of a byte. -/
def byteMask (remainingBits : Nat) : UInt8 := UInt8.ofNat (0xff <<< (8 - remainingBits))

/-- `net_ip_in_subnet` -/
def netIpInSubnet (address : Bytes) (addressFamily : IPVersion) (network : Bytes) (networkFamily : IPVersion) (prefixValue : Int) :
    Bool :=
  match parseComparableIp inet address addressFamily, parseComparableIp inet network networkFamily with
  | some addressBytes, some networkBytes =>
    let bits := if networkFamily = .ipv4 then prefixValue + 96 else prefixValue
    if bits < 0 || bits > 128 then false
    else
      let wholeBytes := bits.toNat / 8
      let remainingBits := bits.toNat % 8
      if wholeBytes > 0 && memcmp (addressBytes.take wholeBytes) (networkBytes.take wholeBytes) != 0 then false
      else if remainingBits = 0 then true
      else (addressBytes.getD wholeBytes 0 &&& byteMask remainingBits) == (networkBytes.getD wholeBytes 0 &&& byteMask remainingBits)
  | _, _ => false

/-! ## The list -/

structure SocketAddress where
  address : Bytes
  family : IPVersion
  made : ∃ source, netNormalizeIp inet source family = address
  nonempty : address ≠ []

/-- The constructor. -/
def SocketAddress.create (address : Bytes) (family : IPVersion) : Except NodeArgumentError (SocketAddress inet) :=
  if h : netNormalizeIp inet address family = [] then .error .invalidAddress
  else .ok { address := netNormalizeIp inet address family, family, made := ⟨address, rfl⟩, nonempty := h }

/-- `string | SocketAddress` -/
inductive AddressArgument
  | text (address : Bytes)
  | socketAddress (address : SocketAddress inet)

/-- The arrays of a kind of rule, one entry each. -/
structure BlockList where
  addresses : List (Bytes × IPVersion) := []
  ranges : List (Bytes × Bytes × IPVersion) := []
  subnets : List (Bytes × Int × IPVersion) := []
  ruleStrings : List Bytes := []
  rules : List Bytes := []
  deriving DecidableEq

def asSocketAddress : AddressArgument inet → IPVersion → Except NodeArgumentError (SocketAddress inet)
  | .text address, type => SocketAddress.create inet address type
  | .socketAddress address, _ => .ok address

namespace BlockList

def isAddressRule (rule : Bytes) : Bool := (text "Address: ").isPrefixOf rule
def isSubnetRule (rule : Bytes) : Bool := (text "Subnet: ").isPrefixOf rule

def toJSON (l : BlockList) : List Bytes :=
  l.ruleStrings.filter isAddressRule ++ l.ruleStrings.filter (fun rule => !isAddressRule rule && isSubnetRule rule) ++
    l.ruleStrings.filter (fun rule => !isAddressRule rule && !isSubnetRule rule)

def refreshRules (l : BlockList) : BlockList := { l with rules := l.toJSON }

def addressRule (family : IPVersion) (address : Bytes) : Bytes :=
  text "Address: IPv" ++ decimal family.number ++ text " " ++ address

def rangeRule (family : IPVersion) (start stop : Bytes) : Bytes :=
  text "Range: IPv" ++ decimal family.number ++ text " " ++ start ++ text "-" ++ stop

def subnetRule (family : IPVersion) (network : Bytes) (prefixValue : Int) : Bytes :=
  text "Subnet: IPv" ++ decimal family.number ++ text " " ++ network ++ text "/" ++ decimal prefixValue.toNat

def addAddress (l : BlockList) (address : AddressArgument inet) (type : IPVersion) : Except NodeArgumentError BlockList := do
  let parsed ← asSocketAddress inet address type
  return refreshRules
    { l with
      addresses := (parsed.address, parsed.family) :: l.addresses
      ruleStrings := addressRule parsed.family parsed.address :: l.ruleStrings }

def addRange (l : BlockList) (start stop : AddressArgument inet) (type : IPVersion) : Except NodeArgumentError BlockList := do
  let parsedStart ← asSocketAddress inet start type
  let parsedEnd ← asSocketAddress inet stop type
  if parsedStart.family ≠ parsedEnd.family ||
      netIpCompare inet parsedStart.address parsedStart.family parsedEnd.address parsedEnd.family > 0 then
    throw .invalidArgValue
  return refreshRules
    { l with
      ranges := (parsedStart.address, parsedEnd.address, parsedStart.family) :: l.ranges
      ruleStrings := rangeRule parsedStart.family parsedStart.address parsedEnd.address :: l.ruleStrings }

/-- A prefix that is no integer is refused like one that is out of range. -/
def addSubnet (l : BlockList) (network : AddressArgument inet) (prefixValue : Option Int) (type : IPVersion) :
    Except NodeArgumentError BlockList := do
  let parsed ← asSocketAddress inet network type
  let maximum : Int := if parsed.family = .ipv4 then 32 else 128
  match prefixValue with
  | none => throw .outOfRange
  | some prefixValue =>
    if prefixValue < 0 || prefixValue > maximum then throw .outOfRange
    return refreshRules
      { l with
        subnets := (parsed.address, prefixValue, parsed.family) :: l.subnets
        ruleStrings := subnetRule parsed.family parsed.address prefixValue :: l.ruleStrings }

def check (l : BlockList) (address : AddressArgument inet) (type : IPVersion) : Except NodeArgumentError Bool := do
  let parsed ← asSocketAddress inet address type
  let compare := netIpCompare inet parsed.address parsed.family
  return l.addresses.any (fun (value, family) => compare value family == 0) ||
    l.ranges.any (fun (start, stop, family) => compare start family ≥ 0 && compare stop family ≤ 0) ||
    l.subnets.any (fun (network, prefixValue, family) =>
      netIpInSubnet inet parsed.address parsed.family network family prefixValue)

/-- `lastIndexOf` -/
def lastIndexOf (c : UInt8) (s : Bytes) : Option Nat := (find [c] s.reverse).map (fun i => s.length - 1 - i)

def slash : UInt8 := 47

/-- `Number`, where it makes an integer of its text; `other` is what it makes of a text that is not all digits. Beyond `2 ^ 53` it
rounds, to a number that is out of the range of every prefix as well. -/
def toNumber (other : Bytes → Option Int) (s : Bytes) : Option Int :=
  match digitsValue 0 s with
  | none => other s
  | some n => some n

variable (other : Bytes → Option Int)

def label : IPVersion → Bytes
  | .ipv4 => text "IPv4"
  | .ipv6 => text "IPv6"

/-- A round of the loop of `addSerializedRule`: what it returns or throws. -/
def addRuleOf (l : BlockList) (rule : Bytes) (family : IPVersion) : Option (Except NodeArgumentError BlockList) :=
  let addressPrefix := text "Address: " ++ label family ++ text " "
  let rangePrefix := text "Range: " ++ label family ++ text " "
  let subnetPrefix := text "Subnet: " ++ label family ++ text " "
  if addressPrefix.isPrefixOf rule then some (l.addAddress inet (.text (rule.drop addressPrefix.length)) family)
  else
    let range := if rangePrefix.isPrefixOf rule then find [hyphen] (rule.drop rangePrefix.length) else none
    let subnet := if subnetPrefix.isPrefixOf rule then lastIndexOf slash (rule.drop subnetPrefix.length) else none
    match range, subnet with
    | some (separator + 1), _ =>
      let value := rule.drop rangePrefix.length
      some (l.addRange inet (.text (value.take (separator + 1))) (.text (value.drop (separator + 2))) family)
    | _, some (separator + 1) =>
      let value := rule.drop subnetPrefix.length
      some (l.addSubnet inet (.text (value.take (separator + 1))) (toNumber other (value.drop (separator + 2))) family)
    | _, _ => none

def addSerializedRule (l : BlockList) (rule : Bytes) : Except NodeArgumentError BlockList :=
  match l.addRuleOf inet other rule .ipv4 with
  | some r => r
  | none =>
    match l.addRuleOf inet other rule .ipv6 with
    | some r => r
    | none => .error .invalidArgValue

/-- `fromJSON` of an array: the rules before one that throws are kept. -/
def fromJSON (l : BlockList) : List Bytes → BlockList × Option NodeArgumentError
  | [] => (l, none)
  | rule :: rest =>
    match l.addSerializedRule inet other rule with
    | .ok l => l.fromJSON rest
    | .error e => (l, some e)

end BlockList

/-! ## Sets of addresses -/

/-- The 128-bit number that an address stands for; an IPv4 address stands for `::ffff:a.b.c.d`. -/
def textNumber (family : IPVersion) (address : Bytes) : Option Nat :=
  match family with
  | .ipv4 => if Ipv4Text address then (inet.pton4 address).map (fun b => 0xffff * 2 ^ 32 + ofBigEndian b) else none
  | .ipv6 => (inet.pton6 (cString (beforeZone address))).map ofBigEndian

variable {inet}

variable {a s : Bytes} {n : Nat}

def AddressArgument.number (type : IPVersion) : AddressArgument inet → Option Nat
  | .text address => textNumber inet type address
  | .socketAddress a => textNumber inet a.family a.address

def AddressArgument.family (type : IPVersion) : AddressArgument inet → IPVersion
  | .text _ => type
  | .socketAddress a => a.family

/-- The numbers that agree with `m` on the first `bits` of 128 bits. -/
def subnetOf (m bits : Nat) : Set Nat := {n | n / 2 ^ (128 - bits) = m / 2 ^ (128 - bits)}

/-- The bits that a prefix counts, in the 128 of the number. -/
def IPVersion.bits : IPVersion → Nat → Nat
  | .ipv4, p => p + 96
  | .ipv6, p => p

/-- A call that adds a rule. -/
inductive Rule (inet : Inet)
  | address (address : AddressArgument inet) (type : IPVersion)
  | range (start stop : AddressArgument inet) (type : IPVersion)
  | subnet (network : AddressArgument inet) (prefixValue : Option Int) (type : IPVersion)

def Rule.set : Rule inet → Set Nat
  | .address a type => {n | a.number type = some n}
  | .range start stop type => {n | ∃ m ∈ start.number type, ∃ k ∈ stop.number type, m ≤ n ∧ n ≤ k}
  | .subnet a p type => {n | ∃ m ∈ a.number type, ∃ q ∈ p, n ∈ subnetOf m ((a.family type).bits q.toNat)}

def BlockList.add (l : BlockList) : Rule inet → Except NodeArgumentError BlockList
  | .address a type => l.addAddress inet a type
  | .range start stop type => l.addRange inet start stop type
  | .subnet a p type => l.addSubnet inet a p type

/-- Calls one after the other; none of them throws. -/
def BlockList.addAll (l : BlockList) (rules : List (Rule inet)) : Except NodeArgumentError BlockList := rules.foldlM BlockList.add l

/-- The platform converts addresses to bytes and back. -/
structure Inet.Converts (inet : Inet) : Prop where
  accepts : inet.Accepts
  accepts4 : ∀ s, Ipv4Text s → ∃ b, inet.pton4 s = some b ∧ b.length = 4
  length6 : ∀ s b, inet.pton6 s = some b → b.length = 16
  back6 : ∀ b : Bytes, b.length = 16 → 0 ∉ inet.ntop6 b ∧ inet.pton6 (inet.ntop6 b) = some b

/-! ## Comparing -/

theorem numericPart_eq (s : Bytes) : numericPart s = beforeZone s := by
  have h := cut_of_find s
  unfold numericPart
  cases hf : find [percent] s with
  | none | some i => simp only [hf] at h; exact h.1.symm

theorem netIsIp_four (h : inet.Accepts) (s : Bytes) : netIsIp inet s = 4 ↔ Ipv4Text s := by
  rw [netIsIp_eq h]
  by_cases h4 : Ipv4Text s
  · simp [h4]
  · simp only [h4, if_false, iff_false]
    split <;> simp

theorem Ipv4Text.cString_eq (h : Ipv4Text s) : cString s = s :=
  Net.cString_eq (fun h0 => absurd (h.plain h0).1 (by decide))

theorem comparable_of_number (h : inet.Converts) {family : IPVersion} (hn : textNumber inet family s = some n) :
    ∃ b, parseComparableIp inet s family = some b ∧ b.length = 16 ∧ ofBigEndian b = n := by
  cases family with
  | ipv4 =>
    simp only [textNumber] at hn
    split at hn
    · next h4 =>
      obtain ⟨b, hb, hlen⟩ := h.accepts4 s h4
      rw [hb] at hn
      cases hn
      refine ⟨List.replicate 10 0 ++ [0xff, 0xff] ++ b, ?_, by simp [hlen], ?_⟩
      · simp [parseComparableIp, (netIsIp_four h.accepts s).2 h4, h4.cString_eq, hb]
      · rw [ofBigEndian_append, hlen]; rfl
    · cases hn
  | ipv6 =>
    simp only [textNumber] at hn
    obtain ⟨b, hb, rfl⟩ := Option.map_eq_some_iff.1 hn
    exact ⟨b, by simp [parseComparableIp, numericPart_eq, hb], h.length6 _ _ hb, rfl⟩

theorem memcmp_eq : ∀ {a b : Bytes}, a.length = b.length →
    memcmp a b = if ofBigEndian a < ofBigEndian b then -1 else if ofBigEndian a > ofBigEndian b then 1 else 0
  | [], [], _ => by simp [memcmp, ofBigEndian]
  | x :: a, y :: b, h => by
    have hlen : a.length = b.length := by simpa using h
    have ha := ofBigEndian_lt a
    have hb := ofBigEndian_lt b
    rw [← hlen] at hb
    rw [memcmp, ofBigEndian_cons, ofBigEndian_cons, ← hlen]
    rcases Nat.lt_trichotomy x.toNat y.toNat with hlt | heq | hgt
    · have hmul : (x.toNat + 1) * 256 ^ a.length ≤ y.toNat * 256 ^ a.length := Nat.mul_le_mul_right _ hlt
      rw [Nat.add_mul, Nat.one_mul] at hmul
      rw [if_pos (UInt8.lt_iff_toNat_lt.2 hlt), if_pos (by omega)]
    · have : x = y := UInt8.toNat_inj.1 heq
      subst this
      rw [if_neg (by simp), if_neg (by simp), memcmp_eq hlen]
      simp only [Nat.add_lt_add_iff_left, gt_iff_lt]
    · have hmul : (y.toNat + 1) * 256 ^ a.length ≤ x.toNat * 256 ^ a.length := Nat.mul_le_mul_right _ hgt
      rw [Nat.add_mul, Nat.one_mul] at hmul
      rw [if_neg (by rw [UInt8.lt_iff_toNat_lt]; omega), if_pos (UInt8.lt_iff_toNat_lt.2 hgt), if_neg (by omega), if_pos (by omega)]

theorem netIpCompare_eq (h : inet.Converts) {f g : IPVersion} {b : Bytes} {m : Nat} (hn : textNumber inet f a = some n)
    (hm : textNumber inet g b = some m) : netIpCompare inet a f b g = if n < m then -1 else if n > m then 1 else 0 := by
  obtain ⟨x, hx, hlx, rfl⟩ := comparable_of_number h hn
  obtain ⟨y, hy, hly, rfl⟩ := comparable_of_number h hm
  rw [netIpCompare, hx, hy]; exact memcmp_eq (by omega)

/-! ## Subnets -/

theorem byteMask_eq_iff {r : Nat} (hr : r < 8) (x y : UInt8) :
    (x &&& byteMask r == y &&& byteMask r) = true ↔ x.toNat / 2 ^ (8 - r) = y.toNat / 2 ^ (8 - r) := by
  have hmask : ∀ r < 8, ∀ n < 256, (UInt8.ofNat n &&& byteMask r).toNat = n / 2 ^ (8 - r) * 2 ^ (8 - r) := by decide +kernel
  have hbyte : ∀ z : UInt8, (z &&& byteMask r).toNat = z.toNat / 2 ^ (8 - r) * 2 ^ (8 - r) := fun z => by
    have := hmask r hr z.toNat z.toNat_lt; rwa [UInt8.ofNat_toNat] at this
  rw [beq_iff_eq, ← UInt8.toNat_inj, hbyte, hbyte]
  constructor
  · exact Nat.eq_of_mul_eq_mul_right (Nat.two_pow_pos _)
  · exact fun h => by rw [h]

theorem agree_iff {x y : Bytes} (hx : x.length = 16) (hy : y.length = 16) {k : Nat} (hk : k ≤ 128) :
    (if k / 8 > 0 && memcmp (x.take (k / 8)) (y.take (k / 8)) != 0 then false
      else if k % 8 = 0 then true
      else (x.getD (k / 8) 0 &&& byteMask (k % 8)) == (y.getD (k / 8) 0 &&& byteMask (k % 8))) = true ↔
    ofBigEndian x / 2 ^ (128 - k) = ofBigEndian y / 2 ^ (128 - k) := by
  obtain ⟨w, hw⟩ : ∃ w, w = k / 8 := ⟨_, rfl⟩
  obtain ⟨r, hr⟩ : ∃ r, r = k % 8 := ⟨_, rfl⟩
  rw [← hw, ← hr]
  have hbits : k = 8 * w + r := by omega
  have hr8 : r < 8 := by omega
  have hw16 : w ≤ 16 := by omega
  have hwhole : (w > 0 && memcmp (x.take w) (y.take w) != 0) = true ↔ ofBigEndian (x.take w) ≠ ofBigEndian (y.take w) := by
    rw [memcmp_eq (by simp [hx, hy])]
    rcases Nat.eq_zero_or_pos w with rfl | hpos
    · simp
    · rcases Nat.lt_trichotomy (ofBigEndian (x.take w)) (ofBigEndian (y.take w)) with h | h | h
      · simp [h, hpos, Nat.ne_of_lt h]
      · simp [h]
      · simp [h, hpos, Nat.ne_of_gt h, Nat.not_lt.2 (Nat.le_of_lt h)]
  by_cases hdiff : ofBigEndian (x.take w) = ofBigEndian (y.take w)
  · rw [if_neg (fun h => hwhole.1 h hdiff)]
    by_cases hr0 : r = 0
    · have hshift : 128 - k = 8 * (16 - w) := by omega
      simp only [hr0, if_true, true_iff]
      rw [ofBigEndian_take, ofBigEndian_take, hx, hy] at hdiff; rwa [hshift]
    · rw [if_neg hr0, byteMask_eq_iff hr8]
      have hbyte : ∀ {b : Bytes}, b.length = 16 →
          ofBigEndian b / 2 ^ (128 - k) = ofBigEndian (b.take w) * 2 ^ r + (b.getD w 0).toNat / 2 ^ (8 - r) := by
        intro b hb
        have hlt : w < b.length := by omega
        have hnext : ofBigEndian (b.take (w + 1)) = ofBigEndian (b.take w) * 256 + (b.getD w 0).toNat := by
          rw [List.take_succ_eq_append_getElem hlt, ofBigEndian_append]; simp [ofBigEndian, List.getElem?_eq_getElem hlt]
        have hpow : (256 : Nat) = 2 ^ (8 - r) * 2 ^ r := by
          rw [← Nat.pow_add, Nat.sub_add_cancel (by omega)]
        rw [show 128 - k = 8 * (16 - (w + 1)) + (8 - r) by omega, Nat.pow_add, ← Nat.div_div_eq_div_mul, ← hb,
          ← ofBigEndian_take, hnext, hpow, ← Nat.mul_assoc, Nat.mul_comm _ (2 ^ (8 - r)), Nat.mul_assoc,
          Nat.mul_add_div (Nat.two_pow_pos _)]
      rw [hbyte hx, hbyte hy, hdiff]
      constructor
      · exact fun h => by rw [h]
      · exact Nat.add_left_cancel
  · rw [if_pos (hwhole.2 hdiff)]
    simp only [Bool.false_eq_true, false_iff]
    intro heq
    apply hdiff
    rw [ofBigEndian_take, ofBigEndian_take, hx, hy, show 8 * (16 - w) = (128 - k) + r by omega, Nat.pow_add,
      ← Nat.div_div_eq_div_mul, ← Nat.div_div_eq_div_mul, heq]

theorem netIpInSubnet_iff (h : inet.Converts) {f g : IPVersion} {network : Bytes} {m : Nat} (hn : textNumber inet f a = some n)
    (hm : textNumber inet g network = some m) {p : Int} (hp : 0 ≤ p) (hmax : g.bits p.toNat ≤ 128) :
    netIpInSubnet inet a f network g p = true ↔ n ∈ subnetOf m (g.bits p.toNat) := by
  obtain ⟨x, hx, hlx, rfl⟩ := comparable_of_number h hn
  obtain ⟨y, hy, hly, rfl⟩ := comparable_of_number h hm
  have hbits : (if g = .ipv4 then p + 96 else p) = (g.bits p.toNat : Int) := by
    cases g <;> simp [IPVersion.bits] <;> omega
  rw [netIpInSubnet, hx, hy]
  simp only [hbits, Int.toNat_natCast]
  rw [if_neg (by simp; omega), agree_iff hlx hly hmax]
  rfl

/-! ## Canonical texts -/

/-- What a `SocketAddress` holds. -/
def Canonical (inet : Inet) (family : IPVersion) (a : Bytes) : Prop := netNormalizeIp inet a family = a ∧ a ≠ []

section

variable (h : inet.Converts)
include h

theorem Canonical.number {family : IPVersion} (hc : Canonical inet family a) :
    (∃ n, textNumber inet family a = some n) ∧ ∀ c ∈ a, plainCharacter c = true := by
  obtain ⟨hnorm, hne⟩ := hc
  cases family with
  | ipv4 =>
    simp only [netNormalizeIp] at hnorm
    split at hnorm
    · next h4 =>
      have h4 : Ipv4Text a := (netIsIp_four h.accepts a).1 h4
      obtain ⟨b, hb, -⟩ := h.accepts4 a h4
      exact ⟨⟨_, by simp [textNumber, h4, hb]; rfl⟩, fun c hc => (h4.plain hc).1⟩
    · exact absurd hnorm.symm hne
  | ipv6 =>
    simp only [netNormalizeIp, numericPart_eq] at hnorm
    split at hnorm
    · exact absurd hnorm.symm hne
    · next b hb =>
      obtain ⟨hzero, hback⟩ := h.back6 b (h.length6 _ _ hb)
      rw [hnorm] at hzero hback
      have h6 : Ipv6Text a := (h.accepts a hzero).1 (by rw [hback]; rfl)
      exact ⟨⟨ofBigEndian b, by simp [textNumber, hb]⟩, h6.plain⟩

theorem canonical_of_normalize {family : IPVersion} (hne : netNormalizeIp inet s family ≠ []) :
    Canonical inet family (netNormalizeIp inet s family) ∧
      textNumber inet family (netNormalizeIp inet s family) = textNumber inet family s := by
  cases family with
  | ipv4 =>
    simp only [netNormalizeIp] at hne ⊢
    split at hne
    · next h4 =>
      rw [if_pos h4]; exact ⟨⟨by simp [netNormalizeIp, h4], hne⟩, rfl⟩
    · exact absurd rfl hne
  | ipv6 =>
    simp only [netNormalizeIp, numericPart_eq] at hne ⊢
    split at hne
    · exact absurd rfl hne
    · next b hb =>
      obtain ⟨hzero, hback⟩ := h.back6 b (h.length6 _ _ hb)
      have h6 : Ipv6Text (inet.ntop6 b) := (h.accepts _ hzero).1 (by rw [hback]; rfl)
      have hbefore : beforeZone (inet.ntop6 b) = inet.ntop6 b := by
        refine List.takeWhile_eq_self_iff.2 (fun c hc => ?_)
        have : c ≠ percent := fun heq => h6.not_mem (c := percent) (by decide) (heq ▸ hc)
        simpa using this
      have hread : inet.pton6 (cString (beforeZone (inet.ntop6 b))) = some b := by rw [hbefore, cString_eq hzero, hback]
      exact ⟨⟨by simp [netNormalizeIp, numericPart_eq, hread], hne⟩, by simp [textNumber, hread, hb]⟩

theorem SocketAddress.canonical (a : SocketAddress inet) : Canonical inet a.family a.address := by
  obtain ⟨source, hs⟩ := a.made
  rw [← hs]; exact (canonical_of_normalize h (by rw [hs]; exact a.nonempty)).1

theorem normalize_ne_nil {family : IPVersion} (hn : textNumber inet family s = some n) :
    netNormalizeIp inet s family ≠ [] := by
  cases family with
  | ipv4 =>
    simp only [textNumber] at hn
    split at hn
    · next h4 =>
      rw [netNormalizeIp, if_pos ((netIsIp_four h.accepts s).2 h4)]
      rintro rfl; simp [Ipv4Text] at h4
    · cases hn
  | ipv6 =>
    simp only [textNumber] at hn
    obtain ⟨b, hb, -⟩ := Option.map_eq_some_iff.1 hn
    obtain ⟨hzero, hback⟩ := h.back6 b (h.length6 _ _ hb)
    have h6 : Ipv6Text (inet.ntop6 b) := (h.accepts _ hzero).1 (by rw [hback]; rfl)
    simp only [netNormalizeIp, numericPart_eq, hb]; exact List.ne_nil_of_mem h6.colon_mem

theorem asSocketAddress_eq (a : AddressArgument inet) (type : IPVersion) :
    match a.number type with
    | none => asSocketAddress inet a type = .error .invalidAddress
    | some n => ∃ parsed, asSocketAddress inet a type = .ok parsed ∧ parsed.family = a.family type ∧
        textNumber inet parsed.family parsed.address = some n := by
  cases a with
  | text s =>
    split
    · next hn =>
      have hnil : netNormalizeIp inet s type = [] := by
        by_contra hne
        obtain ⟨hc, hsame⟩ := canonical_of_normalize h hne
        obtain ⟨⟨n, hn'⟩, -⟩ := hc.number h
        rw [hsame, show textNumber inet type s = none from hn] at hn'
        cases hn'
      simp [asSocketAddress, SocketAddress.create, hnil]
    · next n hn =>
      have hne := normalize_ne_nil h (show textNumber inet type s = some n from hn)
      refine ⟨⟨netNormalizeIp inet s type, type, ⟨s, rfl⟩, hne⟩, ?_, rfl, ?_⟩
      · simp [asSocketAddress, SocketAddress.create, hne]
      · exact (canonical_of_normalize h hne).2.trans hn
  | socketAddress a =>
    obtain ⟨⟨n, hn⟩, -⟩ := (a.canonical h).number h; simp only [AddressArgument.number, hn]; exact ⟨a, rfl, rfl, hn⟩

end

end NodeCompat.Net
