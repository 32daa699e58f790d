import NodeCompat.Net.BlockList

/-!
# What a block list holds

A list holds a union of sets of 128-bit numbers (`block_list_membership`), whatever the order its rules came in, and holds it again
when it is read back from its text.
-/

namespace NodeCompat.Net

open List

variable {inet : Inet}

/-! ## Entries -/

/-- A rule as the list keeps it. -/
inductive Entry
  | address (address : Bytes) (family : IPVersion)
  | range (start stop : Bytes) (family : IPVersion)
  | subnet (network : Bytes) (prefixValue : Int) (family : IPVersion)
  deriving DecidableEq

namespace Entry

def rule : Entry → Bytes
  | .address a family => BlockList.addressRule family a
  | .range start stop family => BlockList.rangeRule family start stop
  | .subnet network p family => BlockList.subnetRule family network p

def family : Entry → IPVersion
  | .address _ family => family
  | .range _ _ family => family
  | .subnet _ _ family => family

def set (inet : Inet) : Entry → Set Nat
  | .address a family => {n | textNumber inet family a = some n}
  | .range start stop family => {n | ∃ m ∈ textNumber inet family start, ∃ k ∈ textNumber inet family stop, m ≤ n ∧ n ≤ k}
  | .subnet network p family => {n | ∃ m ∈ textNumber inet family network, n ∈ subnetOf m (family.bits p.toNat)}

/-- What its `add` has checked. -/
def Valid (inet : Inet) : Entry → Prop
  | .address a family => Canonical inet family a
  | .range start stop family => Canonical inet family start ∧ Canonical inet family stop ∧ ¬ netIpCompare inet start family stop family > 0
  | .subnet network p family => Canonical inet family network ∧ 0 ≤ p ∧ p ≤ if family = .ipv4 then 32 else 128

def address? : Entry → Option (Bytes × IPVersion)
  | .address a family => some (a, family)
  | _ => none

def range? : Entry → Option (Bytes × Bytes × IPVersion)
  | .range start stop family => some (start, stop, family)
  | _ => none

def subnet? : Entry → Option (Bytes × Int × IPVersion)
  | .subnet network p family => some (network, p, family)
  | _ => none

end Entry

theorem bits_le {family : IPVersion} {p : Int} (hp : 0 ≤ p) (hmax : p ≤ if family = .ipv4 then 32 else 128) :
    family.bits p.toNat ≤ 128 := by
  cases family <;> simp only [IPVersion.bits, if_true, reduceCtorEq, if_false] at * <;> omega

namespace BlockList

/-- A new rule stands in front. -/
def push (l : BlockList) (e : Entry) : BlockList := refreshRules
    { l with
      addresses := e.address?.toList ++ l.addresses
      ranges := e.range?.toList ++ l.ranges
      subnets := e.subnet?.toList ++ l.subnets
      ruleStrings := e.rule :: l.ruleStrings }

/-- The list that holds `es`, the newest first. -/
def ofEntries (es : List Entry) : BlockList := es.foldr (fun e l => l.push e) {}

variable {es : List Entry} {l : BlockList}

variable {a : AddressArgument inet} {type : IPVersion}

theorem ofEntries_fields (es : List Entry) : (ofEntries es).addresses = es.filterMap Entry.address? ∧
    (ofEntries es).ranges = es.filterMap Entry.range? ∧ (ofEntries es).subnets = es.filterMap Entry.subnet? ∧
    (ofEntries es).ruleStrings = es.map Entry.rule := by
  induction es with
  | nil => exact ⟨rfl, rfl, rfl, rfl⟩
  | cons e es ih =>
    obtain ⟨ha, hr, hs, hrules⟩ := ih
    refine ⟨?_, ?_, ?_, ?_⟩
    · show e.address?.toList ++ (ofEntries es).addresses = _
      rw [ha]
      cases e <;> rfl
    · show e.range?.toList ++ (ofEntries es).ranges = _
      rw [hr]
      cases e <;> rfl
    · show e.subnet?.toList ++ (ofEntries es).subnets = _
      rw [hs]
      cases e <;> rfl
    · show e.rule :: (ofEntries es).ruleStrings = _; rw [hrules]; rfl

/-! ### Adding -/

theorem addAddress_eq (l : BlockList) {parsed : SocketAddress inet}
    (h : asSocketAddress inet a type = .ok parsed) : l.addAddress inet a type = .ok (l.push (.address parsed.address parsed.family)) := by
  rw [addAddress, h]; rfl

theorem addRange_eq (l : BlockList) {b : AddressArgument inet} {start stop : SocketAddress inet}
    (ha : asSocketAddress inet a type = .ok start) (hb : asSocketAddress inet b type = .ok stop) :
    l.addRange inet a b type =
      if start.family = stop.family ∧ ¬ netIpCompare inet start.address start.family stop.address start.family > 0 then
        .ok (l.push (.range start.address stop.address start.family))
      else .error .invalidArgValue := by
  rw [addRange, ha, hb]
  simp only [bind, Except.bind]
  by_cases hf : start.family = stop.family
  · by_cases hc : netIpCompare inet start.address start.family stop.address start.family > 0
    · rw [← hf]; simp [hc, throw, throwThe, MonadExceptOf.throw]
    · rw [← hf]; simp [hc]; rfl
  · simp [hf, throw, throwThe, MonadExceptOf.throw]

theorem addSubnet_eq (l : BlockList) {network : SocketAddress inet}
    (h : asSocketAddress inet a type = .ok network) (p : Option Int) :
    l.addSubnet inet a p type =
      match p with
      | none => .error .outOfRange
      | some p =>
        if 0 ≤ p ∧ p ≤ (if network.family = .ipv4 then 32 else 128) then .ok (l.push (.subnet network.address p network.family))
        else .error .outOfRange := by
  rw [addSubnet, h]
  simp only [bind, Except.bind]
  cases p with
  | none => rfl
  | some p =>
    dsimp only
    by_cases hp : 0 ≤ p ∧ p ≤ (if network.family = .ipv4 then 32 else 128)
    · have hok : ¬ (decide (p < 0) || decide (p > (if network.family = .ipv4 then 32 else 128))) = true := by
        simp only [Bool.or_eq_true, decide_eq_true_eq]; omega
      rw [if_neg hok, if_pos hp]; rfl
    · have hno : (decide (p < 0) || decide (p > (if network.family = .ipv4 then 32 else 128))) = true := by
        simp only [Bool.or_eq_true, decide_eq_true_eq]; omega
      rw [if_pos hno, if_neg hp]; rfl

/-- A call that does not throw adds an entry with its set, and would add it to any list. -/
theorem add_ok (h : inet.Converts) {r : Rule inet} {l' : BlockList} (hadd : l.add r = .ok l') :
    ∃ e : Entry, e.Valid inet ∧ e.set inet = r.set ∧ ∀ l : BlockList, l.add r = .ok (l.push e) := by
  have hresolve : ∀ (a : AddressArgument inet) (type : IPVersion), (∃ parsed, asSocketAddress inet a type = .ok parsed ∧
      parsed.family = a.family type ∧ textNumber inet parsed.family parsed.address = a.number type) ∨
      asSocketAddress inet a type = .error .invalidAddress := by
    intro a type
    have ha := asSocketAddress_eq h a type
    split at ha
    · exact .inr ha
    · next n hn =>
      obtain ⟨parsed, hok, hf, hnum⟩ := ha; exact .inl ⟨parsed, hok, hf, hnum.trans hn.symm⟩
  cases r with
  | address a type =>
    rcases hresolve a type with ⟨parsed, ha, -, hnum⟩ | ha
    · refine ⟨.address parsed.address parsed.family, parsed.canonical h, ?_, fun l => addAddress_eq l ha⟩
      simp only [Entry.set, Rule.set, hnum]
    · rw [add, addAddress, ha] at hadd; cases hadd
  | range a b type =>
    rcases hresolve a type with ⟨start, ha, -, hstart⟩ | ha
    · rcases hresolve b type with ⟨stop, hb, -, hstop⟩ | hb
      · rw [add, addRange_eq l ha hb] at hadd
        split at hadd
        · next hc =>
          refine ⟨.range start.address stop.address start.family, ⟨start.canonical h, ?_, hc.2⟩, ?_, fun l => ?_⟩
          · rw [hc.1]; exact stop.canonical h
          · rw [← hc.1] at hstop; simp only [Entry.set, Rule.set, hstart, hstop]
          · rw [add, addRange_eq l ha hb, if_pos hc]
        · cases hadd
      · rw [add, addRange, ha, hb] at hadd; cases hadd
    · rw [add, addRange, ha] at hadd; cases hadd
  | subnet a p type =>
    rcases hresolve a type with ⟨network, ha, hf, hnum⟩ | ha
    · rw [add, addSubnet_eq l ha] at hadd
      split at hadd
      · cases hadd
      · next q =>
        by_cases hq : 0 ≤ q ∧ q ≤ if network.family = .ipv4 then 32 else 128
        · refine ⟨.subnet network.address q network.family, ⟨network.canonical h, hq⟩, ?_, fun l => ?_⟩
          · simp only [Entry.set, Rule.set, ← hf, hnum, Option.mem_def, Option.some.injEq, exists_eq_left']
          · rw [add, addSubnet_eq l ha]; exact if_pos hq
        · rw [if_neg hq] at hadd; cases hadd
    · rw [add, addSubnet, ha] at hadd; cases hadd

/-! ### Checking -/

theorem check_ofEntries (h : inet.Converts) (hes : ∀ e ∈ es, e.Valid inet) {n : Nat}
    (hn : a.number type = some n) :
    ∃ b, (ofEntries es).check inet a type = .ok b ∧ (b = true ↔ ∃ e ∈ es, n ∈ e.set inet) := by
  have ha := asSocketAddress_eq h a type
  rw [hn] at ha
  obtain ⟨parsed, hok, -, hnum⟩ := ha
  obtain ⟨haddr, hrange, hsub, -⟩ := ofEntries_fields es
  refine ⟨_, by rw [check, hok]; rfl, ?_⟩
  rw [haddr, hrange, hsub]
  simp only [Bool.or_eq_true, any_eq_true, mem_filterMap, Bool.and_eq_true, beq_iff_eq, decide_eq_true_eq, Prod.exists]
  constructor
  · rintro ((⟨v, f, ⟨e, he, hv⟩, htest⟩ | ⟨start, stop, f, ⟨e, he, hv⟩, hlow, hhigh⟩) | ⟨network, p, f, ⟨e, he, hv⟩, htest⟩)
    · refine ⟨e, he, ?_⟩
      cases e <;> cases hv
      obtain ⟨⟨m, hm⟩, -⟩ := Canonical.number h (hes _ he)
      rw [netIpCompare_eq h hnum hm] at htest
      simp only [Entry.set, Set.mem_ofPred_eq, hm, Option.some.injEq]
      split at htest
      · cases htest
      · split at htest
        · cases htest
        · omega
    · refine ⟨e, he, ?_⟩
      cases e <;> cases hv
      obtain ⟨hstart, hstop, -⟩ := hes _ he
      obtain ⟨⟨m, hm⟩, -⟩ := hstart.number h
      obtain ⟨⟨k, hk⟩, -⟩ := hstop.number h
      rw [netIpCompare_eq h hnum hm] at hlow
      rw [netIpCompare_eq h hnum hk] at hhigh
      refine ⟨m, hm, k, hk, ?_, ?_⟩
      · by_contra hlt
        rw [if_pos (by omega)] at hlow; omega
      · by_contra hgt
        rw [if_neg (by omega), if_pos (by omega)] at hhigh; omega
    · refine ⟨e, he, ?_⟩
      cases e <;> cases hv
      obtain ⟨hnet, hp⟩ := hes _ he
      obtain ⟨⟨m, hm⟩, -⟩ := hnet.number h
      exact ⟨m, hm, (netIpInSubnet_iff h hnum hm hp.1 (bits_le hp.1 hp.2)).1 htest⟩
  · rintro ⟨e, he, hmem⟩
    cases e with
    | address v f =>
      refine .inl (.inl ⟨v, f, ⟨_, he, rfl⟩, ?_⟩)
      rw [netIpCompare_eq h hnum hmem, if_neg (by omega), if_neg (by omega)]
    | range start stop f =>
      obtain ⟨m, hm, k, hk, hlow, hhigh⟩ := hmem
      refine .inl (.inr ⟨start, stop, f, ⟨_, he, rfl⟩, ?_, ?_⟩)
      · rw [netIpCompare_eq h hnum hm, if_neg (by omega)]
        split <;> omega
      · rw [netIpCompare_eq h hnum hk]
        split
        · omega
        · rw [if_neg (by omega)]
    | subnet network p f =>
      obtain ⟨m, hm, hin⟩ := hmem
      obtain ⟨-, hp⟩ := hes _ he
      exact .inr ⟨network, p, f, ⟨_, he, rfl⟩, (netIpInSubnet_iff h hnum hm hp.1 (bits_le hp.1 hp.2)).2 hin⟩

/-! ### In any order -/

/-- The entry that a call adds, to any list. -/
def Adds (r : Rule inet) (e : Entry) : Prop := e.Valid inet ∧ e.set inet = r.set ∧ ∀ l : BlockList, l.add r = .ok (l.push e)

theorem adds_of_addAll (h : inet.Converts) {rules : List (Rule inet)} : ∀ {l l' : BlockList}, l.addAll rules = .ok l' →
    ∀ r ∈ rules, ∃ e, Adds r e := by
  induction rules with
  | nil => simp
  | cons r rules ih =>
    intro l l' hadd
    rw [addAll, foldlM_cons] at hadd
    cases hr : l.add r with
    | error e => rw [hr] at hadd; cases hadd
    | ok l₁ =>
      rw [hr] at hadd
      intro r' hr'
      rcases mem_cons.1 hr' with rfl | hr'
      · exact add_ok h hr
      · exact ih hadd r' hr'

theorem addAll_ok {rules : List (Rule inet)} : ∀ {es : List Entry}, (∀ e ∈ es, e.Valid inet) → (∀ r ∈ rules, ∃ e, Adds r e) →
    ∃ es', (ofEntries es).addAll rules = .ok (ofEntries es') ∧ (∀ e ∈ es', e.Valid inet) ∧
      ∀ n, (∃ e ∈ es', n ∈ e.set inet) ↔ (∃ e ∈ es, n ∈ e.set inet) ∨ ∃ r ∈ rules, n ∈ r.set := by
  induction rules with
  | nil => exact fun {es} hes _ => ⟨es, rfl, hes, by simp⟩
  | cons r rules ih =>
    intro es hes hrules
    obtain ⟨e, hvalid, hset, hadd⟩ := hrules r (by simp)
    have hes' : ∀ e' ∈ e :: es, e'.Valid inet := by
      intro e' he'
      rcases mem_cons.1 he' with rfl | he'
      · exact hvalid
      · exact hes e' he'
    obtain ⟨es', hall, hvalid', hmem⟩ := ih hes' (fun r' hr' => hrules r' (by simp [hr']))
    refine ⟨es', ?_, hvalid', fun n => (hmem n).trans ?_⟩
    · rw [addAll, foldlM_cons, hadd]; exact hall
    · simp only [mem_cons, exists_eq_or_imp, hset]; rw [or_assoc, or_left_comm]

/-! ### The text form -/

variable (other : Bytes → Option Int)

variable (family : IPVersion)

variable (l : BlockList)

theorem asSocketAddress_canonical {family : IPVersion} {a : Bytes} (hc : Canonical inet family a) :
    ∃ parsed, asSocketAddress inet (.text a) family = .ok parsed ∧ parsed.address = a ∧ parsed.family = family := by
  obtain ⟨hnorm, hne⟩ := hc
  have hne' : netNormalizeIp inet a family ≠ [] := by rwa [hnorm]
  exact ⟨_, dif_neg hne', hnorm, rfl⟩

theorem toNumber_decimal (n : Nat) : toNumber other (decimal n) = some (n : Int) := by
  rw [toNumber, decimal, digitsValue_digits (fun d hd => lt_of_mem_digitsOf (by omega) hd), ofDigits_digitsOf]

theorem slash_not_mem_decimal (n : Nat) : slash ∉ decimal n := by
  intro h
  obtain ⟨d, hd, heq⟩ := mem_map.1 h
  have hlt : d < 10 := lt_of_mem_digitsOf (by omega) hd
  have hnat := congrArg UInt8.toNat heq
  rw [UInt8.toNat_ofNat'] at hnat
  have : (48 + d) % 2 ^ 8 = 47 := hnat
  omega

theorem lastIndexOf_slash (network : Bytes) (n : Nat) :
    lastIndexOf slash (network ++ slash :: decimal n) = some network.length := by
  have hrev : (network ++ slash :: decimal n).reverse = (decimal n).reverse ++ slash :: network.reverse := by simp
  rw [lastIndexOf, hrev, find_single (by simpa using slash_not_mem_decimal n)]; simp

theorem decimal_number : text "IPv" ++ decimal family.number = label family := by
  cases family <;> simp [decimal, digitsOf, IPVersion.number] <;> rfl

theorem addressRule_eq (a : Bytes) : addressRule family a = text "Address: " ++ label family ++ text " " ++ a := by
  rw [← decimal_number]
  simp [addressRule, show text "Address: IPv" = text "Address: " ++ text "IPv" from rfl]

theorem rangeRule_eq (a b : Bytes) :
    rangeRule family a b = text "Range: " ++ label family ++ text " " ++ (a ++ hyphen :: b) := by
  rw [← decimal_number]
  simp [rangeRule, show text "Range: IPv" = text "Range: " ++ text "IPv" from rfl, show text "-" = [hyphen] from rfl]

theorem subnetRule_eq (a : Bytes) (p : Int) :
    subnetRule family a p = text "Subnet: " ++ label family ++ text " " ++ (a ++ slash :: decimal p.toNat) := by
  rw [← decimal_number]
  simp [subnetRule, show text "Subnet: IPv" = text "Subnet: " ++ text "IPv" from rfl, show text "/" = [slash] from rfl]

theorem addRuleOf_address {family : IPVersion} {a : Bytes} (hc : Canonical inet family a) :
    l.addRuleOf inet other (addressRule family a) family = some (.ok (l.push (.address a family))) := by
  obtain ⟨parsed, hparsed, ha, hf⟩ := asSocketAddress_canonical hc
  rw [addressRule_eq, addRuleOf]
  rw [if_pos (List.isPrefixOf_iff_prefix.2 (prefix_append _ _)), drop_left, addAddress_eq l hparsed, ha, hf]

theorem addRuleOf_range (h : inet.Converts) (l : BlockList) {family : IPVersion} {start stop : Bytes}
    (he : (Entry.range start stop family).Valid inet) :
    l.addRuleOf inet other (rangeRule family start stop) family = some (.ok (l.push (.range start stop family))) := by
  obtain ⟨hstart, hstop, hc⟩ := he
  obtain ⟨first, hfirst, ha, hf⟩ := asSocketAddress_canonical hstart
  obtain ⟨last, hlast, hb, hg⟩ := asSocketAddress_canonical hstop
  have hno : hyphen ∉ start := fun hm => absurd ((hstart.number h).2 _ hm) (by decide)
  obtain ⟨k, hk⟩ := Nat.exists_eq_succ_of_ne_zero (mt length_eq_zero_iff.1 hstart.2)
  have htake : (start ++ hyphen :: stop).take (k + 1) = start := by rw [← Nat.succ_eq_add_one, ← hk, take_left]
  have hdrop : (start ++ hyphen :: stop).drop (k + 2) = stop := by
    rw [show k + 2 = start.length + 1 by omega, ← drop_drop, drop_left]
    rfl
  rw [rangeRule_eq, addRuleOf]
  rw [if_neg (by exact Bool.false_ne_true), if_pos (List.isPrefixOf_iff_prefix.2 (prefix_append _ _)), drop_left,
    find_single hno, hk]
  dsimp only; rw [htake, hdrop, addRange_eq l hfirst hlast, ha, hb, hf, hg, if_pos ⟨rfl, hc⟩]

theorem addRuleOf_subnet {family : IPVersion} {network : Bytes} {p : Int}
    (he : (Entry.subnet network p family).Valid inet) :
    l.addRuleOf inet other (subnetRule family network p) family = some (.ok (l.push (.subnet network p family))) := by
  obtain ⟨hnet, hp⟩ := he
  obtain ⟨parsed, hparsed, ha, hf⟩ := asSocketAddress_canonical hnet
  obtain ⟨k, hk⟩ := Nat.exists_eq_succ_of_ne_zero (mt length_eq_zero_iff.1 hnet.2)
  have htake : (network ++ slash :: decimal p.toNat).take (k + 1) = network := by rw [← Nat.succ_eq_add_one, ← hk, take_left]
  have hdrop : (network ++ slash :: decimal p.toNat).drop (k + 2) = decimal p.toNat := by
    rw [show k + 2 = network.length + 1 by omega, ← drop_drop, drop_left]
    rfl
  rw [subnetRule_eq, addRuleOf]
  rw [if_neg (by exact Bool.false_ne_true), if_neg (by exact Bool.false_ne_true),
    if_pos (List.isPrefixOf_iff_prefix.2 (prefix_append _ _)), drop_left, lastIndexOf_slash, hk]
  dsimp only
  rw [htake, hdrop, toNumber_decimal, addSubnet_eq l hparsed, ha, hf, Int.toNat_of_nonneg hp.1]
  exact congrArg some (if_pos hp)

theorem addRuleOf_ipv4 {e : Entry} (hf : e.family = .ipv6) : l.addRuleOf inet other e.rule .ipv4 = none := by
  cases e <;> cases hf
  · rw [Entry.rule, addressRule_eq]; rfl
  · rw [Entry.rule, rangeRule_eq]; rfl
  · rw [Entry.rule, subnetRule_eq]; rfl

theorem addSerializedRule_rule (h : inet.Converts) (l : BlockList) {e : Entry} (he : e.Valid inet) :
    l.addSerializedRule inet other e.rule = .ok (l.push e) := by
  have hround : l.addRuleOf inet other e.rule e.family = some (.ok (l.push e)) := by
    cases e with
    | address a family => exact addRuleOf_address other l he
    | range start stop family => exact addRuleOf_range other h l he
    | subnet network p family => exact addRuleOf_subnet other l he
  cases hf : e.family with
  | ipv4 => rw [hf] at hround; rw [addSerializedRule, hround]
  | ipv6 => rw [hf] at hround; rw [addSerializedRule, addRuleOf_ipv4 other l hf, hround]

theorem fromJSON_rules (h : inet.Converts) : ∀ {es : List Entry} (es' : List Entry), (∀ e ∈ es, e.Valid inet) →
    (ofEntries es').fromJSON inet other (es.map Entry.rule) = (ofEntries (es.reverse ++ es'), none)
  | [], _, _ => rfl
  | e :: es, es', hes => by
    rw [map_cons, fromJSON, addSerializedRule_rule other h _ (hes e (by simp)), reverse_cons, append_assoc]
    exact fromJSON_rules h (e :: es') (fun e' he' => hes e' (by simp [he']))

theorem toJSON_ofEntries (es : List Entry) : ∃ es' : List Entry, (∀ e, e ∈ es' ↔ e ∈ es) ∧
    (ofEntries es).toJSON = es'.map Entry.rule := by
  refine ⟨es.filter (isAddressRule ∘ Entry.rule) ++
    es.filter ((fun rule => !isAddressRule rule && isSubnetRule rule) ∘ Entry.rule) ++
    es.filter ((fun rule => !isAddressRule rule && !isSubnetRule rule) ∘ Entry.rule), fun e => ?_, ?_⟩
  · simp only [mem_append, mem_filter, Function.comp_apply]
    cases isAddressRule e.rule <;> cases isSubnetRule e.rule <;> simp
  · rw [toJSON, (ofEntries_fields es).2.2.2, map_append, map_append, ← filter_map, ← filter_map, ← filter_map]

end BlockList

open BlockList

/-- **A block list holds a union of sets**, whatever the order its rules came in, and again when it is read back from its text. -/
theorem block_list_membership (other : Bytes → Option Int) (h : inet.Converts) {rules : List (Rule inet)} {l : BlockList} (hl : BlockList.addAll {} rules = .ok l)
    {a : AddressArgument inet} {type : IPVersion} {n : Nat} (hn : a.number type = some n) :
    ∃ b, l.check inet a type = .ok b ∧ (b = true ↔ ∃ r ∈ rules, n ∈ r.set) ∧
      (∀ rules', rules'.Perm rules → ∃ l', BlockList.addAll {} rules' = .ok l' ∧ l'.check inet a type = .ok b) ∧
      ∃ l', BlockList.fromJSON inet other {} l.toJSON = (l', none) ∧ l'.check inet a type = .ok b := by
  have hadds := adds_of_addAll h hl
  have hany : ∀ rules' : List (Rule inet), (∀ r, r ∈ rules' ↔ r ∈ rules) → ∃ es, addAll {} rules' = .ok (ofEntries es) ∧
      (∀ e ∈ es, e.Valid inet) ∧ ∀ n, (∃ e ∈ es, n ∈ e.set inet) ↔ ∃ r ∈ rules, n ∈ r.set := by
    intro rules' hmem
    obtain ⟨es, hall, hvalid, hset⟩ := addAll_ok (show ∀ e ∈ ([] : List Entry), e.Valid inet by simp) (fun r hr => hadds r ((hmem r).1 hr))
    refine ⟨es, hall, hvalid, fun n => (hset n).trans ?_⟩
    simp [hmem]
  obtain ⟨es, hall, hvalid, hset⟩ := hany rules (fun _ => Iff.rfl)
  rw [hl] at hall
  cases hall
  obtain ⟨b, hcheck, hb⟩ := check_ofEntries h hvalid hn
  have hb := hb.trans (hset n)
  have hsame : ∀ es', (∀ e ∈ es', e.Valid inet) → (∀ n, (∃ e ∈ es', n ∈ e.set inet) ↔ ∃ r ∈ rules, n ∈ r.set) →
      (ofEntries es').check inet a type = .ok b := by
    intro es' hvalid' hset'
    obtain ⟨b', hcheck', hb'⟩ := check_ofEntries h hvalid' hn
    rw [hcheck', Bool.eq_iff_iff.2 ((hb'.trans (hset' n)).trans hb.symm)]
  refine ⟨b, hcheck, hb, fun rules' hperm => ?_, ?_⟩
  · obtain ⟨es', hall', hvalid', hset'⟩ := hany rules' (fun r => hperm.mem_iff)
    exact ⟨_, hall', hsame es' hvalid' hset'⟩
  · obtain ⟨es', hmem, hjson⟩ := toJSON_ofEntries es
    refine ⟨ofEntries (es'.reverse ++ []), ?_, hsame _ ?_ ?_⟩
    · rw [hjson]; exact fromJSON_rules other h [] (fun e he => hvalid e ((hmem e).1 he))
    · exact fun e he => hvalid e ((hmem e).1 (by simpa using he))
    · intro n; rw [← hset n]; simp [hmem]

/-! ## A platform -/

theorem find_pair_intercalate {c : UInt8} : ∀ {gs : List Bytes}, (∀ g ∈ gs, g ≠ [] ∧ c ∉ g) → find [c, c] ([c].intercalate gs) = none
  | [], _ => rfl
  | [g], h => by
    have hg := (h g (by simp)).2; rw [intercalate_singleton, ← append_nil g, find_skip_of_ne hg]; rfl
  | g :: g' :: gs, h => by
    have ih := find_pair_intercalate (fun x hx => h x (mem_cons_of_mem g hx))
    have hstep : [c].intercalate (g :: g' :: gs) = g ++ c :: [c].intercalate (g' :: gs) := by simp [List.intercalate]
    have hhead : ¬ [c, c] <+: c :: [c].intercalate (g' :: gs) := by
      obtain ⟨hne, hc⟩ := h g' (by simp)
      obtain ⟨x, y, rfl⟩ := exists_cons_of_ne_nil hne
      have hx : c ≠ x := fun heq => hc (by simp [heq])
      cases gs <;> simp [List.intercalate, cons_prefix_cons, hx]
    rw [hstep, find_skip_of_ne (h g (by simp)).2, find_cons_of_not hhead, ih]; rfl

theorem ipv6Text_groups {gs : List Bytes} (h : ∀ g ∈ gs, isHexGroup g = true) (hlen : gs.length = 8) :
    Ipv6Text ([colon].intercalate gs) := by
  have hpiece : ∀ g ∈ gs, g ≠ [] ∧ colon ∉ g := fun g hg => by
    have hall := h g hg
    simp only [isHexGroup, Bool.and_eq_true, all_eq_true, decide_eq_true_eq] at hall
    refine ⟨fun hnil => ?_, fun hm => absurd (hall.2 _ hm) (by decide)⟩
    rw [hnil] at hall; exact absurd hall.1.1 (by decide)
  have hcount : ∀ gs : List Bytes, (∀ g ∈ gs, isHexGroup g = true) → groupCount true gs = some gs.length := by
    intro gs hgs
    induction gs with
    | nil => rfl
    | cons g gs ih =>
      have hg := hgs g (by simp)
      have ih := ih (fun g' hg' => hgs g' (by simp [hg']))
      cases gs with
      | nil => simp [groupCount, hg]
      | cons g' gs => rw [groupCount, if_pos hg, ih] <;> simp
  have hne : gs ≠ [] := by rintro rfl; cases hlen
  rw [Ipv6Text, find_pair_intercalate hpiece]
  rw [splitOn_intercalate colon (fun g hg => (hpiece g hg).2) hne, hcount gs h, hlen]

/-- A hexadecimal digit, and the number it stands for. -/
def hexCharacter (n : UInt8) : UInt8 := if n < 10 then 48 + n else 87 + n
def hexNumber (c : UInt8) : UInt8 := if c < 58 then c - 48 else c - 87

/-- Eight groups of four digits. -/
def fullGroups : Bytes → List Bytes
  | x :: y :: rest => [hexCharacter (x / 16), hexCharacter (x % 16), hexCharacter (y / 16), hexCharacter (y % 16)] :: fullGroups rest
  | _ => []

/-- Conversions of IPv4 addresses, and of IPv6 addresses in eight groups of four digits. -/
def wholeTexts : Inet where
  pton4 s := if Ipv4Text s then some ((s.splitOn dot).map (fun p => UInt8.ofNat ((digitsValue 0 p).getD 0))) else none
  pton6 s :=
    if Ipv6Text s then
      let digits := s.filter (· ≠ colon)
      some ((List.range 16).map (fun i => 16 * hexNumber (digits.getD (2 * i) 48) + hexNumber (digits.getD (2 * i + 1) 48)))
    else none
  ntop6 b := [colon].intercalate (fullGroups b)

theorem hex_byte (x : UInt8) : isHexDigit (hexCharacter (x / 16)) = true ∧ isHexDigit (hexCharacter (x % 16)) = true ∧
    16 * hexNumber (hexCharacter (x / 16)) + hexNumber (hexCharacter (x % 16)) = x := by
  have h : ∀ n < 256, isHexDigit (hexCharacter (UInt8.ofNat n / 16)) = true ∧ isHexDigit (hexCharacter (UInt8.ofNat n % 16)) = true ∧
      16 * hexNumber (hexCharacter (UInt8.ofNat n / 16)) + hexNumber (hexCharacter (UInt8.ofNat n % 16)) = UInt8.ofNat n := by
    decide +kernel
  have := h x.toNat x.toNat_lt; rwa [UInt8.ofNat_toNat] at this

theorem isHexGroup_fullGroups : ∀ b : Bytes, ∀ g ∈ fullGroups b, isHexGroup g = true
  | [], _, h => by simp [fullGroups] at h
  | [_], _, h => by simp [fullGroups] at h
  | x :: y :: rest, g, h => by
    rcases mem_cons.1 h with rfl | h
    · simp [isHexGroup, hex_byte]
    · exact isHexGroup_fullGroups rest g h

theorem filter_intercalate {gs : List Bytes} (h : ∀ g ∈ gs, colon ∉ g) : ([colon].intercalate gs).filter (· ≠ colon) = gs.flatten := by
  induction gs with
  | nil => rfl
  | cons g gs ih =>
    have hg : g.filter (· ≠ colon) = g := by
      apply filter_eq_self.2
      intro c hc
      have : c ≠ colon := fun heq => h g (by simp) (heq ▸ hc)
      simpa using this
    have ih := ih (fun g' hg' => h g' (by simp [hg']))
    cases gs with
    | nil => simpa [List.intercalate] using hg
    | cons g' gs =>
      have hstep : [colon].intercalate (g :: g' :: gs) = g ++ colon :: [colon].intercalate (g' :: gs) := by simp [List.intercalate]
      rw [hstep, filter_append, hg, filter_cons_of_neg (by simp), ih, ← flatten_cons]

theorem eq_sixteen {b : Bytes} (h : b.length = 16) : ∃ b0 b1 b2 b3 b4 b5 b6 b7 b8 b9 b10 b11 b12 b13 b14 b15,
    b = [b0, b1, b2, b3, b4, b5, b6, b7, b8, b9, b10, b11, b12, b13, b14, b15] := by
  match b, h with
  | [b0, b1, b2, b3, b4, b5, b6, b7, b8, b9, b10, b11, b12, b13, b14, b15], _ => exact ⟨_, _, _, _, _, _, _, _, _, _, _, _, _, _, _, _, rfl⟩

theorem converts_wholeTexts : wholeTexts.Converts where
  accepts t _ := by
    simp only [wholeTexts]
    split <;> simp [*]
  accepts4 s h := ⟨_, if_pos h, by simp [h.1]⟩
  length6 s b h := by
    simp only [wholeTexts] at h
    split at h
    · cases h; simp
    · cases h
  back6 b h := by
    have hgroups := isHexGroup_fullGroups b
    obtain ⟨b0, b1, b2, b3, b4, b5, b6, b7, b8, b9, b10, b11, b12, b13, b14, b15, hb⟩ := eq_sixteen h
    have htext : Ipv6Text ([colon].intercalate (fullGroups b)) := ipv6Text_groups hgroups (by rw [hb]; rfl)
    have hcolon : ∀ g ∈ fullGroups b, colon ∉ g := fun g hg hm => by
      have hall := hgroups g hg
      simp only [isHexGroup, Bool.and_eq_true, all_eq_true] at hall
      exact absurd (hall.2 _ hm) (by decide)
    refine ⟨htext.not_mem (by decide), ?_⟩
    simp only [wholeTexts]
    rw [if_pos htext, filter_intercalate hcolon, hb]
    simp [fullGroups, range_succ, hex_byte]

/-- `10.1.2.3` is in `10.0.0.0/8`. -/
theorem block_list_membership_subnet : ∃ l,
    BlockList.addAll {} [(.subnet (.text (text "10.0.0.0")) (some 8) .ipv4 : Rule wholeTexts)] = .ok l ∧
      l.check wholeTexts (.text (text "10.1.2.3")) .ipv4 = .ok true := by
  have hnetwork : textNumber wholeTexts .ipv4 (text "10.0.0.0") = some 0xffff0a000000 := by decide +kernel
  have haddress : (AddressArgument.text (text "10.1.2.3") : AddressArgument wholeTexts).number .ipv4 = some 0xffff0a010203 := by
    decide +kernel
  obtain ⟨l, hl⟩ : ∃ l, addAll {} [(.subnet (.text (text "10.0.0.0")) (some 8) .ipv4 : Rule wholeTexts)] = .ok l := ⟨_, rfl⟩
  obtain ⟨b, hcheck, hb, -⟩ := block_list_membership (fun _ => none) converts_wholeTexts hl haddress
  have hin : b = true := hb.2 ⟨_, mem_singleton_self _, ⟨_, hnetwork, 8, rfl, rfl⟩⟩
  exact ⟨l, hl, hin ▸ hcheck⟩

end NodeCompat.Net
