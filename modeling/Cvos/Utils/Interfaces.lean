import Cvos.Lib.CBuffer
import Cvos.Lib.Decimal
import Cvos.Lib.Transition
import Mathlib.Logic.Function.Basic

/-! The addresses of a network interface, which `utils.c` collects in a linked list. The head of the
list is a static variable that keeps its value when the list is freed.
-/

namespace Cvos.Utils

open Cvos.Lib

/-- A `struct sockaddr` of the families that the code knows. -/
inductive SockAddr where
  | inet (sinAddr : Fin 4 → UInt8)
  | packet (sllAddr : Fin 8 → UInt8)
  | other

/-- A `struct ifaddrs`. The name of an interface has fewer than `IFNAMSIZ` characters. -/
structure IfAddrs where
  ifaName : Bytes
  ifaAddr : Option SockAddr
  short : ifaName.length < 16

/-- A `struct if_ipv4_info`, which refers to the next one by its address. -/
structure IfInfo where
  ifName : Bytes
  ipAddr : Bytes
  hdAddr : Bytes
  rawHdAddr : Bytes
  next : Option Nat

/-- The static `if_info`, and the nodes that are allocated and not freed, by address. A node gets an
address that no other one has had.
-/
structure IfState where
  ifInfo : Option Nat
  nodes : Nat → Option IfInfo
  fresh : Nat

/-- At the start of the process. -/
def IfState.initial : IfState := ⟨none, fun _ => none, 0⟩

/-- A call of `utl_IfGetInfo`: its arguments, of which each pointer may be null, what `getifaddrs`
returns, and the text that the memory for a new node holds where it is not initialised.
-/
structure Query where
  ifName : Bytes
  ip : Bool
  mac : Bool
  rawMac : Bool
  ifa : Option (List IfAddrs)
  uninitialised : Bytes

/-- What a call writes through its pointers. -/
structure Answer where
  ip : Option Bytes
  mac : Option Bytes
  rawMac : Option Bytes
  deriving DecidableEq

/-- `inet_ntop` for an IPv4 address. -/
def inetNtop (sinAddr : Fin 4 → UInt8) : Bytes :=
  (List.finRange 4).flatMap fun i =>
    decimal (sinAddr i).toNat ++ if i < 3 then [Char.toUInt8 '.'] else []

/-- The conversion `%02x` of a byte. -/
def hex02 (c : UInt8) : Bytes :=
  [(Nat.digitChar (c.toNat / 16)).toUInt8, (Nat.digitChar (c.toNat % 16)).toUInt8]

/-- What `_if_prt_if_info` prints into `buf` for a link-layer address. -/
def macText (sllAddr : Fin 8 → UInt8) : Bytes :=
  (List.finRange 6).flatMap fun i =>
    hex02 (sllAddr (i.castLE (by decide))) ++ if i < 5 then [Char.toUInt8 ':'] else []

/-- What `_if_prt_if_info` prints into `raw_buf` for a link-layer address. -/
def rawMacText (sllAddr : Fin 8 → UInt8) : Bytes :=
  (List.finRange 6).flatMap fun i => hex02 (sllAddr (i.castLE (by decide)))

/-- The name `lo`. -/
def loopback : Bytes := [Char.toUInt8 'l', Char.toUInt8 'o']

/-- The node at an address. -/
def IfState.node (s : IfState) (p : Nat) : Checked IfInfo :=
  match s.nodes p with
  | some node => .ok node
  | none => .error .useAfterFree

/-- The state with another content of a node. -/
def IfState.store (s : IfState) (p : Nat) (node : Option IfInfo) : IfState :=
  { s with nodes := Function.update s.nodes p node }

/-- The node with the texts of an address, as the `switch` statements of `_if_add_to_link` write
them from `buf` and `raw_buf`.
-/
def IfInfo.fill (node : IfInfo) : SockAddr → IfInfo
  | .inet sinAddr => { node with ipAddr := inetNtop sinAddr }
  | .packet sllAddr =>
      { node with rawHdAddr := rawMacText sllAddr, hdAddr := macText sllAddr }
  | .other => node

/-- The node that `_if_add_to_link` initialises. -/
def newNode (name uninitialised : Bytes) : IfInfo := ⟨name, [], [], uninitialised, none⟩

/-- The loop of `_if_add_to_link` from the node at `p`: the node of the name, if there is one, and
the last node that was looked at. No chain is longer than the number of the nodes.
-/
def findNode (s : IfState) (name : Bytes) : Nat → Nat → Checked (Option Nat × Nat)
  | 0, _ => .error .diverges
  | bound + 1, p => do
      let node ← s.node p
      if node.ifName = name then
        .ok (some p, p)
      else
        match node.next with
        | none => .ok (none, p)
        | some next => findNode s name bound next

/-- `_if_add_to_link` -/
def ifAddToLink (name : Bytes) (addr : SockAddr) (uninitialised : Bytes) (s : IfState)
    : Checked IfState :=
  let node := (newNode name uninitialised).fill addr
  let added := { s.store s.fresh (some node) with fresh := s.fresh + 1 }
  match s.ifInfo with
  | none => .ok { added with ifInfo := some s.fresh }
  | some head => do
      let (p, q) ← findNode s name s.fresh head
      match p with
      | some p =>
          let node ← s.node p
          .ok (s.store p (some (node.fill addr)))
      | none =>
          let last ← added.node q
          .ok (added.store q (some { last with next := some s.fresh }))

/-- The loop of `_if_get_if_info`. -/
def collect (ifName uninitialised : Bytes) : List IfAddrs → IfState → Checked IfState
  | [], s => .ok s
  | ifap :: rest, s =>
      if ifap.ifaName = loopback then
        collect ifName uninitialised rest s
      else
        match ifap.ifaAddr with
        | none | some .other => collect ifName uninitialised rest s
        | some addr =>
            if ifap.ifaName ≠ ifName then
              collect ifName uninitialised rest s
            else do
              let s ← ifAddToLink ifap.ifaName addr uninitialised s
              collect ifName uninitialised rest s

/-- The loop of `utl_IfGetInfo` that frees the list from the node at `p`. -/
def freeList : Nat → Option Nat → IfState → Checked IfState
  | _, none, s => .ok s
  | 0, some _, _ => .error .diverges
  | bound + 1, some p, s => do
      let node ← s.node p
      freeList bound node.next (s.store p none)

/-- A text of the first node, for a pointer that is not null. -/
def IfState.first (s : IfState) (wanted : Bool) (text : IfInfo → Bytes)
    : Checked (Option Bytes) :=
  if wanted then
    match s.ifInfo with
    | none => .error .nullPointer
    | some head => do
        let node ← s.node head
        .ok (some (text node))
  else
    .ok none

/-- `utl_IfGetInfo` -/
def utlIfGetInfo (q : Query) (s : IfState) : Checked (Int × Answer × IfState) :=
  match q.ifa with
  | none => do
      let s ← freeList s.fresh s.ifInfo s
      .ok (-1, ⟨none, none, none⟩, s)
  | some ifa => do
      let s ← collect q.ifName q.uninitialised ifa s
      let mac ← s.first q.mac IfInfo.hdAddr
      let ip ← s.first q.ip IfInfo.ipAddr
      let rawMac ← s.first q.rawMac IfInfo.rawHdAddr
      let s ← freeList s.fresh s.ifInfo s
      .ok (0, ⟨ip, mac, rawMac⟩, s)

/-- A call that returns. -/
def IfStep (s : IfState) (q : Query) (s' : IfState) : Prop :=
  ∃ ret answer, utlIfGetInfo q s = .ok (ret, answer, s')

/-- The interface of the query has the address. -/
def Query.Has (q : Query) (addr : SockAddr) : Prop :=
  ∃ ifa, q.ifa = some ifa ∧ ∃ ifap ∈ ifa, ifap.ifaName = q.ifName ∧ ifap.ifaAddr = some addr

/-- The interface of the query has an IPv4 address and a link-layer address. -/
def Query.HasBoth (q : Query) : Prop :=
  (∃ sinAddr, q.Has (.inet sinAddr)) ∧ ∃ sllAddr, q.Has (.packet sllAddr)

/-- The answer has the texts that were asked for, of addresses of the interface. -/
structure Query.Delivered (q : Query) (answer : Answer) : Prop where
  ip : ∃ sinAddr, q.Has (.inet sinAddr) ∧ answer.ip = if q.ip then some (inetNtop sinAddr) else none
  mac
    : ∃ sllAddr,
        q.Has (.packet sllAddr)
        ∧ (answer.mac = if q.mac then some (macText sllAddr) else none)
        ∧ answer.rawMac = if q.rawMac then some (rawMacText sllAddr) else none

/-- The call touches no freed node, and delivers what an interface with both addresses has. -/
structure Independent (s : IfState) (q : Query) : Prop where
  live : utlIfGetInfo q s ≠ .error .useAfterFree
  delivers
    : q.HasBoth → ∃ ret answer s', utlIfGetInfo q s = .ok (ret, answer, s') ∧ q.Delivered answer

/-- The call puts an address of its interface into the list. -/
def Query.Records (q : Query) : Prop :=
  q.ifName ≠ loopback ∧ ((∃ sinAddr, q.Has (.inet sinAddr)) ∨ ∃ sllAddr, q.Has (.packet sllAddr))

/-- The call asks for the addresses of the loopback interface, and that has both. -/
def Query.AsksLoopback (q : Query) : Prop :=
  q.ifName = loopback ∧ q.HasBoth ∧ (q.ip || q.mac || q.rawMac)

/-- The texts fit into `buf` and `raw_buf` and the fields of a node, which have 20 bytes, and that
of an IPv4 address into the 16 bytes that `inet_ntop` may write.
-/
theorem texts_fit (sinAddr : Fin 4 → UInt8) (sllAddr : Fin 8 → UInt8)
    : (inetNtop sinAddr).length < 16
      ∧ (macText sllAddr).length < 20
      ∧ (rawMacText sllAddr).length < 20 := by
  have digits : ∀ n : Fin 256, (decimal n).length ≤ 3 := by decide +kernel
  have inet (i : Fin 4) : (decimal (sinAddr i).toNat).length ≤ 3 := digits (sinAddr i).toFin
  have first := inet 0
  have second := inet 1
  have third := inet 2
  have fourth := inet 3
  refine ⟨?_, by simp [macText, List.finRange_succ, hex02], by
    simp [rawMacText, List.finRange_succ, hex02]⟩
  simp only [inetNtop, List.finRange_succ, List.finRange_zero, List.map_nil, List.map_cons,
    List.flatMap_cons, List.flatMap_nil, List.length_append, List.length_nil]
  simp
  omega

-----------------------------------------------------------------------------------------
-- What one call does to the list
-----------------------------------------------------------------------------------------

/-- The address that goes into the list for an entry of `getifaddrs`. -/
def IfAddrs.recorded (ifName : Bytes) (ifap : IfAddrs) : Option SockAddr :=
  if ifap.ifaName = loopback ∨ ifap.ifaName ≠ ifName then
    none
  else
    match ifap.ifaAddr with
    | none | some .other => none
    | some addr => some addr

/-- The addresses of the interface that go into the list. -/
def addressesOf (ifName : Bytes) (ifa : List IfAddrs) : List SockAddr :=
  ifa.filterMap (IfAddrs.recorded ifName)

/-- The addresses that the call puts into the list. -/
def Query.recorded (q : Query) : List SockAddr := addressesOf q.ifName (q.ifa.getD [])

/-- The head of the list is the address of a node that was freed. -/
def Stale (s : IfState) : Prop :=
  ∃ head, s.ifInfo = some head ∧ s.nodes head = none ∧ head < s.fresh

/-- The state after a call that has put addresses into an empty list. -/
def IfState.freed (s : IfState) : IfState :=
  ⟨some s.fresh, Function.update s.nodes s.fresh none, s.fresh + 1⟩

/-- Filling a node keeps its name. -/
theorem IfInfo.fill_ifName (node : IfInfo) (addr : SockAddr)
    : (node.fill addr).ifName = node.ifName := by
  cases addr <;> rfl

@[simp]
theorem IfInfo.fill_next (node : IfInfo) (addr : SockAddr)
    : (node.fill addr).next = node.next := by
  cases addr <;> rfl

/-- Filling a node keeps its place in the list. -/
theorem fill_all_next (addrs : List SockAddr) (node : IfInfo)
    : (addrs.foldl IfInfo.fill node).next = node.next := by
  induction addrs generalizing node with
  | nil => rfl
  | cons addr addrs ih => rw [List.foldl_cons, ih, IfInfo.fill_next]

/-- Of several IPv4 addresses, a node holds one. -/
theorem fill_all_ip {addrs : List SockAddr} (node : IfInfo)
    (has : ∃ sinAddr, .inet sinAddr ∈ addrs)
    : ∃ sinAddr,
        .inet sinAddr ∈ addrs ∧ (addrs.foldl IfInfo.fill node).ipAddr = inetNtop sinAddr := by
  induction addrs using List.reverseRecOn with
  | nil => simp at has
  | append_singleton addrs addr ih =>
      rw [List.foldl_concat]
      have earlier (other : ∀ sinAddr, addr ≠ .inet sinAddr)
          : ∃ sinAddr,
              .inet sinAddr ∈ addrs ++ [addr]
              ∧ (addrs.foldl IfInfo.fill node).ipAddr = inetNtop sinAddr := by
        obtain ⟨sinAddr, member⟩ := has
        have member : .inet sinAddr ∈ addrs := by simpa [(other sinAddr).symm] using member
        obtain ⟨found, member, same⟩ := ih ⟨sinAddr, member⟩
        exact ⟨found, List.mem_append_left _ member, same⟩
      cases addr with
      | inet sinAddr => exact ⟨sinAddr, by simp, rfl⟩
      | packet sllAddr => exact earlier (by simp)
      | other => exact earlier (by simp)

/-- Of several link-layer addresses, a node holds one. -/
theorem fill_all_mac {addrs : List SockAddr} (node : IfInfo)
    (has : ∃ sllAddr, .packet sllAddr ∈ addrs)
    : ∃ sllAddr,
        .packet sllAddr ∈ addrs
        ∧ (addrs.foldl IfInfo.fill node).hdAddr = macText sllAddr
        ∧ (addrs.foldl IfInfo.fill node).rawHdAddr = rawMacText sllAddr := by
  induction addrs using List.reverseRecOn with
  | nil => simp at has
  | append_singleton addrs addr ih =>
      rw [List.foldl_concat]
      have earlier (other : ∀ sllAddr, addr ≠ .packet sllAddr)
          : ∃ sllAddr,
              .packet sllAddr ∈ addrs ++ [addr]
              ∧ (addrs.foldl IfInfo.fill node).hdAddr = macText sllAddr
              ∧ (addrs.foldl IfInfo.fill node).rawHdAddr = rawMacText sllAddr := by
        obtain ⟨sllAddr, member⟩ := has
        have member : .packet sllAddr ∈ addrs := by simpa [(other sllAddr).symm] using member
        obtain ⟨found, member, same⟩ := ih ⟨sllAddr, member⟩
        exact ⟨found, List.mem_append_left _ member, same⟩
      cases addr with
      | inet sinAddr => exact earlier (by simp)
      | packet sllAddr => exact ⟨sllAddr, by simp, rfl, rfl⟩
      | other => exact earlier (by simp)

/-- An entry's address goes into the list if it is one of the interface, and that is not the
loopback interface.
-/
theorem IfAddrs.recorded_eq_some {ifName : Bytes} {ifap : IfAddrs} {addr : SockAddr}
    : ifap.recorded ifName = some addr
      ↔ ifName ≠ loopback
        ∧ addr ≠ .other
        ∧ ifap.ifaName = ifName
        ∧ ifap.ifaAddr = some addr := by
  by_cases named : ifap.ifaName = ifName
  · subst named
    by_cases lo : ifap.ifaName = loopback
    · simp [recorded, lo]
    · cases address : ifap.ifaAddr with
      | none => simp [recorded, address]
      | some found =>
          cases found <;> cases addr <;> simp [recorded, lo, address]
  · simp [recorded, named]

/-- The addresses that go into the list are those of the interface, unless that is the loopback
interface.
-/
theorem mem_addressesOf {ifName : Bytes} {ifa : List IfAddrs} {addr : SockAddr}
    : addr ∈ addressesOf ifName ifa
      ↔ ifName ≠ loopback
        ∧ addr ≠ .other
        ∧ ∃ ifap ∈ ifa, ifap.ifaName = ifName ∧ ifap.ifaAddr = some addr := by
  simp only [addressesOf, List.mem_filterMap, IfAddrs.recorded_eq_some]
  constructor
  · rintro ⟨ifap, member, notLo, known, found⟩
    exact ⟨notLo, known, ifap, member, found⟩
  · rintro ⟨notLo, known, ifap, member, found⟩
    exact ⟨ifap, member, notLo, known, found⟩

/-- The loop passes an entry, or adds its address. -/
theorem collect_cons (ifName uninitialised : Bytes) (ifap : IfAddrs) (rest : List IfAddrs)
    (s : IfState)
    : collect ifName uninitialised (ifap :: rest) s
      = match ifap.recorded ifName with
        | none => collect ifName uninitialised rest s
        | some addr =>
            ifAddToLink ifName addr uninitialised s >>= collect ifName uninitialised rest := by
  rw [collect, IfAddrs.recorded]
  by_cases lo : ifap.ifaName = loopback
  · simp [lo]
  · by_cases named : ifap.ifaName = ifName
    · subst named
      cases address : ifap.ifaAddr with
      | none => simp [lo]
      | some addr => cases addr <;> simp [lo]
    · cases address : ifap.ifaAddr with
      | none => simp [lo, named]
      | some addr => cases addr <;> simp [lo, named]

/-- The loop adds the addresses of the interface one by one. -/
theorem collect_eq (ifName uninitialised : Bytes) (ifa : List IfAddrs) (s : IfState)
    : collect ifName uninitialised ifa s
      = (addressesOf ifName ifa).foldlM (fun s addr => ifAddToLink ifName addr uninitialised s)
          s := by
  induction ifa generalizing s with
  | nil => rfl
  | cons ifap rest ih =>
      rw [collect_cons, addressesOf, List.filterMap_cons]
      cases recorded : ifap.recorded ifName with
      | none => exact ih s
      | some addr =>
          rw [List.foldlM_cons]
          exact congrArg _ (funext fun s => ih s)

section Filling

variable {ifName uninitialised : Bytes} {s : IfState}

/-- Once the list has a node of the name, the next address goes there. -/
theorem ifAddToLink_some (addr : SockAddr) {head : Nat} {node : IfInfo}
    (listed : s.ifInfo = some head) (found : s.nodes head = some node)
    (named : node.ifName = ifName) (allocated : 0 < s.fresh)
    : ifAddToLink ifName addr uninitialised s = .ok (s.store head (some (node.fill addr))) := by
  obtain ⟨bound, more⟩ := Nat.exists_eq_succ_of_ne_zero (Nat.ne_of_gt allocated)
  simp [ifAddToLink, listed, more, findNode, IfState.node, found, named]

/-- Once the list has a node of the name, all further addresses go there. -/
theorem addAll_some (addrs : List SockAddr) {head : Nat} {node : IfInfo}
    (listed : s.ifInfo = some head) (found : s.nodes head = some node)
    (named : node.ifName = ifName) (allocated : 0 < s.fresh)
    : addrs.foldlM (fun s addr => ifAddToLink ifName addr uninitialised s) s
      = .ok (s.store head (some (addrs.foldl IfInfo.fill node))) := by
  induction addrs generalizing s node with
  | nil =>
      have same : Function.update s.nodes head (some node) = s.nodes := by
        rw [← found, Function.update_eq_self]
      simp [IfState.store, same]
      rfl
  | cons addr addrs ih =>
      have now : (s.store head (some (node.fill addr))).nodes head = some (node.fill addr) := by
        simp [IfState.store]
      have further :=
        ih (s := s.store head (some (node.fill addr))) listed now
          ((node.fill_ifName addr).trans named) allocated
      rw [List.foldlM_cons, ifAddToLink_some addr listed found named allocated, Checked.ok_bind,
        further]
      simp [IfState.store]

/-- From an empty list on, the loop makes one node for all the addresses, if there are any. -/
theorem collect_none (ifa : List IfAddrs) (empty : s.ifInfo = none)
    : collect ifName uninitialised ifa s
      = .ok
          (if addressesOf ifName ifa = [] then s
            else
              ⟨some s.fresh,
                Function.update s.nodes s.fresh
                  (some
                    ((addressesOf ifName ifa).foldl IfInfo.fill (newNode ifName uninitialised))),
                s.fresh + 1⟩) := by
  rw [collect_eq]
  cases addressesOf ifName ifa with
  | nil => rfl
  | cons addr addrs =>
      have first
          : ifAddToLink ifName addr uninitialised s
            = .ok
                ⟨some s.fresh,
                  Function.update s.nodes s.fresh (some ((newNode ifName uninitialised).fill addr)),
                  s.fresh + 1⟩ := by
        rw [ifAddToLink, empty]
        rfl
      rw [List.foldlM_cons, first, Checked.ok_bind,
        addAll_some addrs rfl (Function.update_self ..) (by rw [IfInfo.fill_ifName]; rfl)
          (Nat.succ_pos _)]
      simp [IfState.store]

/-- When the head of the list is stale, adding an address uses a freed node. -/
theorem ifAddToLink_stale (stale : Stale s) (addr : SockAddr)
    : ifAddToLink ifName addr uninitialised s = .error .useAfterFree := by
  obtain ⟨head, listed, freed, allocated⟩ := stale
  obtain ⟨bound, more⟩ := Nat.exists_eq_succ_of_ne_zero (Nat.ne_of_gt (Nat.zero_lt_of_lt allocated))
  simp [ifAddToLink, listed, more, findNode, IfState.node, freed]

end Filling

/-- When the head of the list is stale, every call uses a freed node. -/
theorem utlIfGetInfo_stale {s : IfState} (stale : Stale s) (q : Query)
    : utlIfGetInfo q s = .error .useAfterFree := by
  have frees : freeList s.fresh s.ifInfo s = .error .useAfterFree := by
    obtain ⟨head, listed, freed, allocated⟩ := stale
    obtain ⟨bound, more⟩ :=
      Nat.exists_eq_succ_of_ne_zero (Nat.ne_of_gt (Nat.zero_lt_of_lt allocated))
    simp [listed, more, freeList, IfState.node, freed]
  have first (wanted : Bool) (text : IfInfo → Bytes)
      : s.first wanted text = if wanted then .error .useAfterFree else .ok none := by
    obtain ⟨head, listed, freed, allocated⟩ := stale
    simp [IfState.first, listed, IfState.node, freed]
  rw [utlIfGetInfo]
  cases q.ifa with
  | none => simp [frees]
  | some ifa =>
      simp only [collect_eq]
      cases addressesOf q.ifName ifa with
      | nil =>
          cases q.mac <;> cases q.ip <;> cases q.rawMac <;> simp [first, frees, pure, Except.pure]
      | cons addr addrs => simp [ifAddToLink_stale stale]

/-- A text of a live node is delivered if it is asked for. -/
theorem IfState.first_live {s : IfState} {head : Nat} {node : IfInfo}
    (listed : s.ifInfo = some head) (found : s.nodes head = some node) (wanted : Bool)
    (text : IfInfo → Bytes)
    : s.first wanted text = .ok (if wanted then some (text node) else none) := by
  cases wanted <;> simp [IfState.first, listed, IfState.node, found]

/-- A call that finds an empty list makes a node for the addresses of its interface, delivers their
texts and leaves the head stale; without such addresses it reads through a null pointer, if it is to
deliver anything.
-/
theorem utlIfGetInfo_empty {s : IfState} (empty : s.ifInfo = none) (q : Query)
    : utlIfGetInfo q s
      = if q.recorded = [] then
          if q.ifa.isSome ∧ (q.ip || q.mac || q.rawMac) then .error .nullPointer
          else .ok (if q.ifa.isSome then 0 else -1, ⟨none, none, none⟩, s)
        else
          let node := q.recorded.foldl IfInfo.fill (newNode q.ifName q.uninitialised)
          .ok
            (0,
              ⟨if q.ip then some node.ipAddr else none, if q.mac then some node.hdAddr else none,
                if q.rawMac then some node.rawHdAddr else none⟩,
              s.freed) := by
  rw [utlIfGetInfo, Query.recorded]
  cases q.ifa with
  | none => simp [addressesOf, empty, freeList]
  | some ifa =>
      simp only [collect_none ifa empty, Option.getD_some, Checked.ok_bind]
      have last := fill_all_next (addressesOf q.ifName ifa) (newNode q.ifName q.uninitialised)
      generalize (addressesOf q.ifName ifa).foldl IfInfo.fill (newNode q.ifName q.uninitialised)
        = node at last ⊢
      have delivers (wanted : Bool) (text : IfInfo → Bytes)
          : IfState.first
                ⟨some s.fresh, Function.update s.nodes s.fresh (some node), s.fresh + 1⟩ wanted text
              = .ok (if wanted then some (text node) else none) :=
        IfState.first_live rfl (Function.update_self ..) wanted text
      split
      next =>
        cases q.mac <;> cases q.ip <;> cases q.rawMac <;> simp [IfState.first, empty, freeList]
      next => simp [delivers, freeList, IfState.node, last, newNode, IfState.store, IfState.freed]

/-- Once the list has been freed, its head is stale. -/
theorem IfState.freed_stale (s : IfState) : Stale s.freed :=
  ⟨s.fresh, rfl, Function.update_self .., Nat.lt_succ_self _⟩

/-- The calls of the query's interface put its addresses into the list. -/
theorem Query.mem_recorded {q : Query} {addr : SockAddr}
    : addr ∈ q.recorded ↔ q.ifName ≠ loopback ∧ addr ≠ .other ∧ q.Has addr := by
  rw [recorded, mem_addressesOf, Has]
  cases q.ifa <;> simp

/-- A call records something if it puts an address into the list. -/
theorem Query.records_iff {q : Query} : q.Records ↔ q.recorded ≠ [] := by
  constructor
  · rintro ⟨notLo, ⟨sinAddr, has⟩ | ⟨sllAddr, has⟩⟩
    · exact List.ne_nil_of_mem (mem_recorded.mpr ⟨notLo, by simp, has⟩)
    · exact List.ne_nil_of_mem (mem_recorded.mpr ⟨notLo, by simp, has⟩)
  · intro filled
    obtain ⟨addr, member⟩ := List.exists_mem_of_ne_nil _ filled
    obtain ⟨notLo, known, has⟩ := mem_recorded.mp member
    cases addr with
    | inet sinAddr => exact ⟨notLo, .inl ⟨sinAddr, has⟩⟩
    | packet sllAddr => exact ⟨notLo, .inr ⟨sllAddr, has⟩⟩
    | other => contradiction

-----------------------------------------------------------------------------------------
-- Sequences of calls
-----------------------------------------------------------------------------------------

/-- After calls that have returned, either none of them has recorded an address and the list is
empty, or one has and the head of the list is stale.
-/
theorem empty_or_stale {s : IfState} {calls : List (IfState × Query)}
    (run : Run IfStep .initial calls s)
    : (s.ifInfo = none ∧ ∀ taken ∈ calls, ¬taken.2.Records)
      ∨ (Stale s ∧ ∃ taken ∈ calls, taken.2.Records) := by
  induction run with
  | start => exact .inl ⟨rfl, by simp⟩
  | @extend calls s q s' before taken ih =>
      obtain ⟨ret, answer, returned⟩ := taken
      rcases ih with ⟨empty, unrecorded⟩ | ⟨stale, -⟩
      · rw [utlIfGetInfo_empty empty] at returned
        split at returned
        next nothing =>
          split at returned
          next => contradiction
          next =>
            obtain ⟨-, returned⟩ := Prod.mk.inj (Except.ok.inj returned)
            obtain ⟨-, rfl⟩ := Prod.mk.inj returned
            refine .inl ⟨empty, List.forall_mem_append.mpr ⟨unrecorded, ?_⟩⟩
            simpa [Query.records_iff] using nothing
        next something =>
          obtain ⟨-, returned⟩ := Prod.mk.inj (Except.ok.inj returned)
          obtain ⟨-, rfl⟩ := Prod.mk.inj returned
          exact .inr ⟨s.freed_stale, (s, q), by simp, Query.records_iff.mpr something⟩
      · rw [utlIfGetInfo_stale stale] at returned
        contradiction

/-- A call that finds an empty list touches no freed node, and it delivers the addresses of its
interface unless that is the loopback interface.
-/
theorem independent_empty {s : IfState} (empty : s.ifInfo = none) (q : Query)
    : Independent s q ↔ ¬q.AsksLoopback := by
  have call := utlIfGetInfo_empty empty q
  by_cases nothing : q.recorded = []
  · rw [if_pos nothing] at call
    constructor
    · rintro independent ⟨lo, both, asks⟩
      obtain ⟨sinAddr, ifa, present, -⟩ := both.1
      obtain ⟨ret, answer, s', returned, -⟩ := independent.delivers both
      rw [call, if_pos ⟨by simp [present], asks⟩] at returned
      contradiction
    · intro elsewhere
      refine ⟨by rw [call]; split <;> simp, fun both => ?_⟩
      have lo : q.ifName = loopback := by
        by_contra notLo
        exact Query.records_iff.mp ⟨notLo, .inl both.1⟩ nothing
      have asks : (q.ip || q.mac || q.rawMac) = false :=
        Bool.eq_false_iff.mpr fun asks => elsewhere ⟨lo, both, asks⟩
      rw [asks, if_neg (by simp)] at call
      simp only [Bool.or_eq_false_iff] at asks
      obtain ⟨⟨sinAddr, ip⟩, sllAddr, mac⟩ := both
      exact ⟨_, _, _, call, ⟨sinAddr, ip, by simp [asks]⟩, sllAddr, mac, by simp [asks],
        by simp [asks]⟩
  · rw [if_neg nothing] at call
    have notLo : q.ifName ≠ loopback := (Query.records_iff.mpr nothing).1
    refine iff_of_true ⟨by rw [call]; simp, fun both => ?_⟩ fun asked => notLo asked.1
    have member {addr : SockAddr} (known : addr ≠ .other) (has : q.Has addr)
        : addr ∈ q.recorded := Query.mem_recorded.mpr ⟨notLo, known, has⟩
    obtain ⟨⟨sinAddr, ip⟩, sllAddr, mac⟩ := both
    obtain ⟨sinAddr, hasIp, sameIp⟩ :=
      fill_all_ip (newNode q.ifName q.uninitialised) ⟨sinAddr, member (by simp) ip⟩
    obtain ⟨sllAddr, hasMac, sameMac, sameRaw⟩ :=
      fill_all_mac (newNode q.ifName q.uninitialised) ⟨sllAddr, member (by simp) mac⟩
    refine ⟨_, _, _, call, ⟨sinAddr, (Query.mem_recorded.mp hasIp).2.2, by rw [sameIp]⟩, sllAddr,
      (Query.mem_recorded.mp hasMac).2.2, by rw [sameMac], by rw [sameRaw]⟩

/-- After any calls that have returned, the next one touches no freed node and delivers the
addresses of an interface that has both kinds, if and only if no call before has recorded an
address, and it is not the loopback interface whose addresses are asked for.
-/
theorem independent_iff {s : IfState} {calls : List (IfState × Query)}
    (run : Run IfStep .initial calls s) (q : Query)
    : Independent s q ↔ (∀ taken ∈ calls, ¬taken.2.Records) ∧ ¬q.AsksLoopback := by
  rcases empty_or_stale run with ⟨empty, unrecorded⟩ | ⟨stale, taken, member, records⟩
  · simp only [independent_empty empty q, iff_and_self]
    exact fun _ => unrecorded
  · constructor
    · intro independent
      exact absurd (utlIfGetInfo_stale stale q) independent.live
    · exact fun condition => absurd records (condition.1 taken member)

/-- An Ethernet interface `eth0` with an IPv4 address and a link-layer address. -/
def eth0 : Query where
  ifName := [0x65, 0x74, 0x68, 0x30]
  ip := true
  mac := true
  rawMac := true
  ifa :=
    some
      [⟨[0x65, 0x74, 0x68, 0x30], some (.packet fun i => UInt8.ofNat (16 * i)), by decide⟩,
        ⟨[0x65, 0x74, 0x68, 0x30], some (.inet fun i => UInt8.ofNat (10 + i)), by decide⟩]
  uninitialised := []

/-- Witness: the first call delivers. -/
theorem independent_iff_first : Independent .initial eth0 :=
  (independent_iff .start eth0).mpr ⟨by simp, fun lo => absurd lo.1 (by decide)⟩

/-- The second of two equal calls uses a freed node. -/
theorem not_independent_second
    : ¬ ∀ s calls q, Run IfStep .initial calls s → Independent s q := by
  intro always
  have filled : eth0.recorded ≠ [] := by
    have members : eth0.recorded.length = 2 := rfl
    exact List.ne_nil_of_length_eq_add_one members
  have first := utlIfGetInfo_empty (s := .initial) rfl eth0
  rw [if_neg filled] at first
  have returned : IfStep .initial eth0 _ := ⟨_, _, first⟩
  have run := Run.start.extend returned
  exact (always _ _ eth0 run).live (utlIfGetInfo_stale (IfState.freed_stale _) eth0)

end Cvos.Utils
