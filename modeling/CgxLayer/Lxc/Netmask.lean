import CgxLayer.Installer.FreeSpace

namespace CgxLayer.Lxc

open Text
open Installer (digits)

/-- The variables of the script once its options are read, each on one line and the netmask
without characters that the shell splits or expands. -/
structure Options where
  utsname : Text
  ipaddr : Text
  netmask : Text
  gateway : Text
  vlanMasterDev : Text
  bridgeDev : Text
  vdevId : Text
  vdev : Text
  mtu : Text
  trootfs : Text
  trootfsBase : Text
  oneLine : ∀ t ∈ [utsname, ipaddr, netmask, gateway, vlanMasterDev, bridgeDev, vdevId, vdev, mtu, trootfs,
    trootfsBase], '\n' ∉ t
  plain : ∀ c ∈ netmask, c ∉ [' ', '\t', '*', '?', '[', '\\']
  addressed : ipaddr ≠ []

def number (s : Text) : ℕ := Nat.ofDigitChars 10 s 0

-- the value of a variable in `$((..))`, octal after a zero
def arith (s : Text) : Option ℕ :=
  match s with
  | '0' :: c :: cs =>
    if (c :: cs).all (fun d => decide (d.toNat < 56)) then some (Nat.ofDigitChars 8 (c :: cs) 0) else none
  | _ => some (number s)

/-- The rounds of the inner loop of `mask_to_prefix`, to at most `fuel`. -/
def rounds : ℕ → ℕ → Option ℕ
  | 0, _ => none
  | fuel + 1, fld => if fld = 0 then some 0 else (rounds fuel ((fld * 2) &&& 255)).map (· + 1)

-- `none` where the arithmetic is an error
def fieldLength (fld : Text) : Option ℕ :=
  if number fld = 0 then some 0
  else (arith fld).bind (fun n => (rounds 9 ((n * 2) &&& 255)).map (· + 1))

def maskLoop : ℕ → Text → ℕ → Option ℕ
  | 0, _, len => some len
  | n + 1, msk, len =>
    let fld := msk.takeWhile (· != '.')
    let msk := ((splitFirst '.' msk).map Prod.snd).getD msk
    (fieldLength fld).bind (fun k => maskLoop n msk (len + k))

/-- What `$(mask_to_prefix ..)` expands to, nothing after an error. -/
def maskToPrefix (mask : Text) : Text := ((maskLoop 4 mask 0).map decimal).getD []

def prefixPattern (s : Text) : Bool := digits s && decide (s.length ≤ 2)

def octetText (s : Text) : Bool := digits s && decide (s.length ≤ 3)

def quadPattern (s : Text) : Bool := (s.splitOn '.').length == 4 && (s.splitOn '.').all octetText

/-- `PREFIX_LEN`, `none` where the script exits. -/
def prefixLen (netmask : Text) : Option Text :=
  if netmask = [] then some []
  else if prefixPattern netmask then some netmask
  else if quadPattern netmask then some (maskToPrefix netmask)
  else none

def addressKey : Text := "lxc.net.0.ipv4.address = ".toList

def networkLines (o : Options) : List Text :=
  if o.vlanMasterDev ≠ [] then
    [[], "# Container with network virtualized using the vlan device driver".toList,
      "lxc.net.0.type = vlan".toList, "lxc.net.0.vlan.id = ".toList ++ o.vdevId, "lxc.network.0.flags = up".toList,
      "# physical link on the host".toList, "lxc.net.0.link = ".toList ++ o.vlanMasterDev,
      "# link name on the guest".toList, "lxc.net.0.name = ".toList ++ o.vdev, "lxc.net.0.mtu = ".toList ++ o.mtu]
  else
    [[], "# Container with network virtualized using the vlan device driver".toList,
      "lxc.net.0.type = veth".toList, "lxc.net.0.flags = up".toList, "# Bridge net on the host".toList,
      "lxc.net.0.link = ".toList ++ o.bridgeDev, "# link name on the guest".toList,
      "lxc.net.0.name = ".toList ++ o.vdev, "lxc.net.0.mtu = ".toList ++ o.mtu]

def writeLxcConfiguration (o : Options) : Option (List Text) :=
  (prefixLen o.netmask).map (fun len =>
    ["lxc.uts.name = ".toList ++ o.utsname, "lxc.tty.max = 4".toList, "lxc.pty.max = 1024".toList,
      "lxc.rootfs.path = ".toList ++ o.trootfs] ++ networkLines o ++
    (if o.ipaddr ≠ [] then [addressKey ++ (o.ipaddr ++ '/' :: len)] else []) ++
    [[], "# Alternate fstab".toList, "lxc.mount.fstab = ".toList ++ o.trootfsBase ++ "/fstab".toList])

def netmaskKey : Text := "    netmask ".toList

/-- The lines of /etc/network/interfaces, before which NETMASK gets its default. -/
def writeMvlinuxNetwork (o : Options) : List Text :=
  let netmask := if o.netmask = [] ∧ o.ipaddr ≠ [] then "255.255.255.0".toList else o.netmask
  ["# /etc/network/interfaces -- configuration file for ifup(8), ifdown(8)".toList, " ".toList,
    "# The loopback interface".toList, "auto lo".toList, "iface lo inet loopback".toList, [],
    "auto ".toList ++ o.vdev] ++
  (if o.ipaddr = [] then ["iface ".toList ++ o.vdev ++ " inet dhcp".toList]
    else ["iface ".toList ++ o.vdev ++ " inet static".toList, "    address ".toList ++ o.ipaddr]) ++
  (if netmask ≠ [] then [netmaskKey ++ netmask] else []) ++
  (if o.gateway ≠ [] then ["      up ip route add default via ".toList ++ o.gateway ++ " dev ".toList ++ o.vdev]
    else [])

/-- The two files that `create_container` writes, the configuration first, unless it exits. -/
def createContainer (o : Options) : Option (List Text × List Text) :=
  (writeLxcConfiguration o).map (fun conf => (conf, writeMvlinuxNetwork o))

def valuesOf (key : Text) (lines : List Text) : List Text :=
  (lines.filter (startsWith key)).map (fun l => l.drop key.length)

def maskOctets (n : ℕ) : List ℕ := (List.range 4).map (fun i => 256 - 2 ^ (8 - min 8 (n - 8 * i)))

def DenotesPrefix (p : Text) (n : ℕ) : Prop := digits p = true ∧ number p = n

def DenotesMask (m : Text) (n : ℕ) : Prop :=
  DenotesPrefix m n ∨ ((∀ f ∈ m.splitOn '.', digits f = true) ∧ (m.splitOn '.').map number = maskOctets n)

def SameMask (o : Options) (conf interfaces : List Text) : Prop :=
  ∃ len mask n, valuesOf addressKey conf = [o.ipaddr ++ '/' :: len] ∧ valuesOf netmaskKey interfaces = [mask] ∧
    n ≤ 32 ∧ DenotesPrefix len n ∧ DenotesMask mask n ∧ (o.netmask = [] → n = 24)

def MasksAgree (o : Options) : Prop :=
  ∀ conf interfaces, createContainer o = some (conf, interfaces) → SameMask o conf interfaces

def ValidNetmask (o : Options) : Prop :=
  o.netmask ≠ [] ∧ (prefixPattern o.netmask = true ∨ quadPattern o.netmask = true →
    ∃ n ≤ 32, DenotesMask o.netmask n)

variable {o : Options}

theorem valuesOf_conf {conf : List Text} (h : writeLxcConfiguration o = some conf) :
    ∃ len, prefixLen o.netmask = some len ∧ valuesOf addressKey conf = [o.ipaddr ++ '/' :: len] := by
  obtain ⟨len, hlen, rfl⟩ := Option.map_eq_some_iff.mp h
  refine ⟨len, hlen, ?_⟩
  have hnetwork : (networkLines o).filter (startsWith addressKey) = [] := by
    rw [networkLines]
    split_ifs <;> rfl
  have haddress : startsWith addressKey (addressKey ++ (o.ipaddr ++ '/' :: len)) = true :=
    startsWith_iff.mpr (List.prefix_append _ _)
  rw [valuesOf, List.filter_append, List.filter_append, List.filter_append, hnetwork, if_pos o.addressed,
    List.filter_cons_of_pos haddress]
  rfl

theorem valuesOf_interfaces (o : Options) : valuesOf netmaskKey (writeMvlinuxNetwork o) =
    [if o.netmask = [] then "255.255.255.0".toList else o.netmask] := by
  have hmask : ∀ m : Text, startsWith netmaskKey (netmaskKey ++ m) = true :=
    fun m => startsWith_iff.mpr (List.prefix_append _ _)
  have hgateway : (if o.gateway ≠ [] then ["      up ip route add default via ".toList ++ o.gateway ++
      " dev ".toList ++ o.vdev] else []).filter (startsWith netmaskKey) = [] := by
    split_ifs <;> rfl
  by_cases h : o.netmask = []
  · have hdefault : "255.255.255.0".toList ≠ ([] : Text) := by decide
    simp only [valuesOf, writeMvlinuxNetwork, List.filter_append, hgateway, if_neg o.addressed, h, true_and,
      if_pos o.addressed, if_pos hdefault]
    rfl
  · simp only [valuesOf, writeMvlinuxNetwork, List.filter_append, hgateway, if_neg o.addressed, h, false_and,
      if_false, ne_eq, not_false_iff, if_true]
    rw [List.filter_cons_of_pos (hmask _)]
    rfl

theorem rounds_total (n : ℕ) : ∃ k, rounds 9 (n &&& 255) = some k := by
  have hbyte : ∀ m < 256, (rounds 9 m).isSome = true := by decide +kernel
  exact Option.isSome_iff_exists.mp (hbyte _ (Nat.and_lt_two_pow n (by decide : 255 < 2 ^ 8)))

theorem ofDigitChars_lt {s : Text} (hs : s.all Char.isDigit = true) (init : ℕ) :
    Nat.ofDigitChars 10 s init < (init + 1) * 10 ^ s.length := by
  induction s generalizing init with
  | nil => simp
  | cons c s ih =>
    rw [List.all_cons, Bool.and_eq_true] at hs
    have hc := toNat_of_isDigit hs.1
    have hzero : '0'.toNat = 48 := rfl
    calc Nat.ofDigitChars 10 (c :: s) init
        = Nat.ofDigitChars 10 s (10 * init + (c.toNat - '0'.toNat)) := Nat.ofDigitChars_cons
      _ < (10 * init + (c.toNat - '0'.toNat) + 1) * 10 ^ s.length := ih hs.2 _
      _ ≤ ((init + 1) * 10) * 10 ^ s.length := Nat.mul_le_mul_right _ (by omega)
      _ = (init + 1) * 10 ^ (c :: s).length := by rw [List.length_cons, Nat.pow_succ']; ring

theorem number_leading_zero {s : Text} (hs : octetText ('0' :: s) = true) : number ('0' :: s) < 100 := by
  simp only [octetText, digits, List.isEmpty_cons, Bool.not_false, Bool.true_and, List.all_cons, Bool.and_eq_true,
    decide_eq_true_eq, List.length_cons] at hs
  calc number ('0' :: s) = Nat.ofDigitChars 10 s 0 := by rw [number, Nat.ofDigitChars_cons]; rfl
    _ < (0 + 1) * 10 ^ s.length := ofDigitChars_lt hs.1.2 0
    _ ≤ (0 + 1) * 10 ^ 2 := Nat.mul_le_mul_left _ (Nat.pow_le_pow_right (by decide) (by omega))

theorem arith_octet {s : Text} (hs : octetText s = true) (hlarge : 128 ≤ number s) : arith s = some (number s) := by
  unfold arith
  split
  · have hsmall := number_leading_zero hs
    omega
  · rfl

theorem fieldLength_ones {s : Text} (hs : octetText s = true) {k : ℕ} (hk : k ≤ 8)
    (h : number s = 256 - 2 ^ (8 - k)) : fieldLength s = some k := by
  rcases Nat.eq_zero_or_pos k with rfl | hpos
  · have hzero : number s = 0 := h
    rw [fieldLength, if_pos hzero]
  · have hpow : 2 ^ (8 - k) ≤ 2 ^ 7 := Nat.pow_le_pow_right (by decide) (by omega)
    have hlarge : 128 ≤ number s := by omega
    have hrounds : ∀ k < 9, 0 < k → rounds 9 ((256 - 2 ^ (8 - k)) * 2 &&& 255) = some (k - 1) := by decide
    rw [fieldLength, if_neg (by omega), arith_octet hs hlarge, h, Option.bind_some, hrounds k (by omega) hpos,
      Option.map_some, Nat.sub_add_cancel hpos]

theorem digits_dot {s : Text} (hs : digits s = true) : '.' ∉ s := by
  simp only [digits, Bool.and_eq_true, List.all_eq_true] at hs
  exact Installer.not_mem_of_digits hs.2 (by decide)

theorem octetText_dot {s : Text} (hs : octetText s = true) : '.' ∉ s := digits_dot (Bool.and_eq_true_iff.mp hs).1

theorem takeWhile_dot {s : Text} (hs : '.' ∉ s) (t : Text) : (s ++ '.' :: t).takeWhile (· != '.') = s := by
  have hkeep : ∀ c ∈ s, (c != '.') = true := fun c hc => bne_iff_ne.mpr (fun h => hs (h ▸ hc))
  rw [List.takeWhile_append_of_pos hkeep, List.takeWhile_cons_of_neg (by decide), List.append_nil]

theorem maskLoop_joinWith {ks : List ℕ} :
    ∀ {fs : List Text} (_ : ∀ f ∈ fs, octetText f = true) (_ : ∀ k ∈ ks, k ≤ 8)
    (_ : fs.map number = ks.map (fun k => 256 - 2 ^ (8 - k))) (len : ℕ),
    maskLoop ks.length (joinWith '.' fs) len = some (len + ks.sum) := by
  induction ks with
  | nil => exact fun _ _ _ len => rfl
  | cons k ks ih =>
    intro fs hfs hks hnum len
    obtain ⟨f, rest, rfl, hf, hrest⟩ := List.map_eq_cons_iff.mp hnum
    have hfield := fieldLength_ones (hfs f List.mem_cons_self) (hks k List.mem_cons_self) hf
    have hdot := octetText_dot (hfs f List.mem_cons_self)
    cases rest with
    | nil =>
      obtain rfl : ks = [] := List.map_eq_nil_iff.mp hrest.symm
      have hall : f.takeWhile (· != '.') = f :=
        List.takeWhile_eq_self_iff.mpr (fun c hc => bne_iff_ne.mpr (fun h => hdot (h ▸ hc)))
      simp only [List.length_singleton, maskLoop, joinWith_singleton, hall, hfield, Option.bind_some,
        List.sum_singleton]
    | cons g rest =>
      simp only [List.length_cons, maskLoop, joinWith_cons_cons, takeWhile_dot hdot, splitFirst_append _ _ hdot,
        Option.map_some, Option.getD_some, hfield, Option.bind_some, List.sum_cons, ← Nat.add_assoc]
      exact ih (fun x hx => hfs x (List.mem_cons_of_mem _ hx)) (fun x hx => hks x (List.mem_cons_of_mem _ hx))
        hrest _

def ones (n : ℕ) : List ℕ := (List.range 4).map (fun i => min 8 (n - 8 * i))

theorem ones_sum {n : ℕ} (hn : n ≤ 32) : (ones n).sum = n := by
  simp only [ones, List.range_succ, List.range_zero, List.nil_append, List.map_append, List.map_cons, List.map_nil,
    List.sum_append, List.sum_cons, List.sum_nil]
  omega

theorem ones_le (n : ℕ) : ∀ k ∈ ones n, k ≤ 8 := by
  intro k hk
  obtain ⟨i, -, rfl⟩ := List.mem_map.mp hk
  exact min_le_left _ _

theorem maskOctets_eq (n : ℕ) : maskOctets n = (ones n).map (fun k => 256 - 2 ^ (8 - k)) := by
  rw [maskOctets, ones, List.map_map]
  rfl

theorem maskToPrefix_contiguous {m : Text} (hm : quadPattern m = true) {n : ℕ} (hn : n ≤ 32)
    (h : (m.splitOn '.').map number = maskOctets n) : maskToPrefix m = decimal n := by
  have hocts : ∀ f ∈ m.splitOn '.', octetText f = true := List.all_eq_true.mp (Bool.and_eq_true_iff.mp hm).2
  have hloop := maskLoop_joinWith hocts (ones_le n) (h.trans (maskOctets_eq n)) 0
  have hjoin : joinWith '.' (m.splitOn '.') = m := List.intercalate_splitOn '.'
  have hlength : (ones n).length = 4 := by rw [ones, List.length_map, List.length_range]
  rw [hjoin, hlength, ones_sum hn, Nat.zero_add] at hloop
  rw [maskToPrefix, hloop, Option.map_some, Option.getD_some]

example : maskToPrefix "255.255.192.0".toList = "18".toList := by decide

example : maskToPrefix "255.0.255.0".toList = "16".toList := by decide

theorem denotesPrefix_decimal (n : ℕ) : DenotesPrefix (decimal n) n :=
  ⟨Installer.digits_decimal n, Nat.ofDigitChars_ten_toDigits⟩

theorem splitOn_digits {s : Text} (hs : digits s = true) : s.splitOn '.' = [s] :=
  List.splitOn_eq_singleton (digits_dot hs)

theorem denotesPrefix_of_pattern {m : Text} (hm : prefixPattern m = true) {n : ℕ} (h : DenotesMask m n) :
    DenotesPrefix m n := by
  rcases h with h | ⟨-, h⟩
  · exact h
  · rw [splitOn_digits (Bool.and_eq_true_iff.mp hm).1] at h
    have hlength := congrArg List.length h
    rw [maskOctets, List.length_map, List.length_map, List.length_range] at hlength
    cases hlength

theorem octets_of_pattern {m : Text} (hm : quadPattern m = true) {n : ℕ} (h : DenotesMask m n) :
    (m.splitOn '.').map number = maskOctets n := by
  rcases h with ⟨hdigits, -⟩ | ⟨-, h⟩
  · rw [quadPattern, splitOn_digits hdigits] at hm
    cases hm
  · exact h

theorem prefixLen_denotes {m : Text} {n : ℕ} (hne : m ≠ []) (hn : n ≤ 32) (h : DenotesMask m n) {len : Text}
    (hlen : prefixLen m = some len) : DenotesPrefix len n := by
  rw [prefixLen, if_neg hne] at hlen
  split_ifs at hlen with hprefix hquad
  · cases hlen
    exact denotesPrefix_of_pattern hprefix h
  · rw [maskToPrefix_contiguous hquad hn (octets_of_pattern hquad h)] at hlen
    cases hlen
    exact denotesPrefix_decimal n

theorem accepted_of_prefixLen {m len : Text} (hne : m ≠ []) (h : prefixLen m = some len) :
    prefixPattern m = true ∨ quadPattern m = true := by
  rw [prefixLen, if_neg hne] at h
  split_ifs at h with hprefix hquad
  · exact Or.inl hprefix
  · exact Or.inr hquad

theorem prefixLen_of_accepted {m : Text} (h : prefixPattern m = true ∨ quadPattern m = true) :
    ∃ len, prefixLen m = some len := by
  unfold prefixLen
  split_ifs with hnil hprefix hquad
  · exact ⟨_, rfl⟩
  · exact ⟨_, rfl⟩
  · exact ⟨_, rfl⟩
  · exact (h.elim hprefix hquad).elim

theorem sameMask_of_prefixLen (h : MasksAgree o) {len : Text} (hlen : prefixLen o.netmask = some len) :
    ∃ n ≤ 32, DenotesPrefix len n ∧ (o.netmask ≠ [] → DenotesMask o.netmask n) := by
  obtain ⟨conf, hconf⟩ : ∃ conf, writeLxcConfiguration o = some conf := ⟨_, by rw [writeLxcConfiguration, hlen]; rfl⟩
  have hcreate : createContainer o = some (conf, writeMvlinuxNetwork o) := by rw [createContainer, hconf]; rfl
  obtain ⟨len', mask, n, haddress, hnetmask, hn, hprefix, hmask, -⟩ := h conf _ hcreate
  obtain ⟨len'', hlen'', hvalues⟩ := valuesOf_conf hconf
  obtain rfl : len = len'' := Option.some.inj (hlen.symm.trans hlen'')
  obtain rfl : len = len' := by simpa using hvalues.symm.trans haddress
  refine ⟨n, hn, hprefix, fun hne => ?_⟩
  rw [valuesOf_interfaces, if_neg hne] at hnetmask
  cases hnetmask
  exact hmask

theorem masksAgree_iff (o : Options) : MasksAgree o ↔ ValidNetmask o := by
  constructor
  · intro h
    have hne : o.netmask ≠ [] := by
      intro hnil
      obtain ⟨n, -, hprefix, -⟩ := sameMask_of_prefixLen h (by rw [prefixLen, if_pos hnil])
      cases hprefix.1
    refine ⟨hne, fun haccepted => ?_⟩
    obtain ⟨len, hlen⟩ := prefixLen_of_accepted haccepted
    obtain ⟨n, hn, -, hmask⟩ := sameMask_of_prefixLen h hlen
    exact ⟨n, hn, hmask hne⟩
  · rintro ⟨hne, hvalid⟩ conf interfaces hcreate
    obtain ⟨conf', hconf, hpair⟩ := Option.map_eq_some_iff.mp hcreate
    cases hpair
    obtain ⟨len, hlen, hvalues⟩ := valuesOf_conf hconf
    obtain ⟨n, hn, hmask⟩ := hvalid (accepted_of_prefixLen hne hlen)
    refine ⟨len, o.netmask, n, hvalues, ?_, hn, prefixLen_denotes hne hn hmask hlen, hmask, fun h => absurd h hne⟩
    rw [valuesOf_interfaces, if_neg hne]

def c1 : Options where
  utsname := "c1".toList
  ipaddr := "10.0.0.2".toList
  netmask := []
  gateway := []
  vlanMasterDev := []
  bridgeDev := "br0".toList
  vdevId := "100".toList
  vdev := "veth100".toList
  mtu := "1500".toList
  trootfs := "/srv/lxc/c1/rootfs".toList
  trootfsBase := "/srv/lxc/c1".toList
  oneLine := by decide
  plain := by decide
  addressed := by decide

theorem c1_masks_differ : ¬MasksAgree c1 := by
  intro h
  obtain ⟨len, mask, n, haddress, -, -, hprefix, -, -⟩ := h _ _ rfl
  have hlen : len = [] := by
    have hvalues : valuesOf addressKey ((writeLxcConfiguration c1).getD []) = ["10.0.0.2/".toList] := by decide
    simpa [c1] using (haddress.symm.trans hvalues)
  rw [hlen] at hprefix
  cases hprefix.1

end CgxLayer.Lxc
