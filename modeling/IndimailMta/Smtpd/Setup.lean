import IndimailMta.Base

/-!
# Who may relay from the start

Before the first command `relayclient` is `RELAYCLIENT` of the environment, or the result of a
search for the address of the client in relayclients and for its name in relaydomains; with
RELAYCLIENT the two lists are not read. Both searches assign every lookup to `relayclient`.
-/

namespace IndimailMta.Smtpd

open IndimailMta

/-- What `setup` finds: the environment, and the two lists, if there are such control files,
as `constmap` looks texts up in them. -/
structure Connection where
  RELAYCLIENT : Option Bytes := none
  remoteip : Bytes := asc "unknown"
  remotehost : Bytes := asc "unknown"
  relayclients : Option (Bytes → Option Bytes) := none
  relaydomains : Option (Bytes → Option Bytes) := none

/-- The lists are read if `relayclient` is not set; `relayclientsok` and `relaydomainsok` are
these being there. -/
def open_control_files1 (list : Option (Bytes → Option Bytes)) (relayclient : Option Bytes) :
    Option (Bytes → Option Bytes) :=
  if relayclient = none then list else none

/-- The search for the address and its prefixes that end in a dot, from the longest; `i` counts
down and `relayclient` is the last lookup. -/
def searchIp (map : Bytes → Option Bytes) (remoteip : Bytes) : Nat → Option Bytes → Option Bytes
  | 0, relayclient => relayclient
  | i + 1, relayclient =>
      if i + 1 = remoteip.length ∨ remoteip[i]? = some 46 then
        match map (remoteip.take (i + 1)) with
        | some x => some x
        | none => searchIp map remoteip i none
      else searchIp map remoteip i relayclient

/-- The search for the name and its suffixes that begin with a dot, and at last for the empty
text; the argument is what is left of the name, `first` if it is all of it. -/
def searchHost (map : Bytes → Option Bytes) : Bool → Bytes → Option Bytes → Option Bytes
  | _, [], _ => map []
  | first, ch :: rest, relayclient =>
      if first ∨ ch = 46 then
        match map (ch :: rest) with
        | some x => some x
        | none => searchHost map false rest none
      else searchHost map false rest relayclient

/-- `setup`, as far as `relayclient` goes. -/
def setup (c : Connection) : Option Bytes :=
  let relayclient := c.RELAYCLIENT
  let relayclients := open_control_files1 c.relayclients relayclient
  let relaydomains := open_control_files1 c.relaydomains relayclient
  let relayclient := match relayclients with
    | some map => searchIp map c.remoteip c.remoteip.length relayclient
    | none => relayclient
  match relaydomains with
  | some map => searchHost map true c.remotehost relayclient
  | none => relayclient

/-! ## What is listed -/

/-- A text is in the list, if there is one. -/
def isListed (list : Option (Bytes → Option Bytes)) (s : Bytes) : Prop :=
  ∃ map ∈ list, (map s).isSome

/-- The address or one of its prefixes that end in a dot is in relayclients. -/
def IpListed (c : Connection) : Prop :=
  isListed c.relayclients c.remoteip ∨
    ∃ p, p ++ [46] <+: c.remoteip ∧ isListed c.relayclients (p ++ [46])

/-- The name, one of its suffixes that begin with a dot or the empty text is in relaydomains. -/
def HostListed (c : Connection) : Prop :=
  isListed c.relaydomains c.remotehost ∨
    (∃ t, 46 :: t <:+ c.remotehost ∧ isListed c.relaydomains (46 :: t)) ∨
    isListed c.relaydomains []

/-! ## The searches -/

/-- The places of an address that are looked at. -/
def probed (remoteip : Bytes) (i : Nat) : Prop := i + 1 = remoteip.length ∨ remoteip[i]? = some 46

theorem searchIp_isSome (map : Bytes → Option Bytes) (remoteip : Bytes) (n : Nat) :
    (searchIp map remoteip n none).isSome ↔
      ∃ i < n, probed remoteip i ∧ (map (remoteip.take (i + 1))).isSome := by
  induction n with
  | zero => simp [searchIp]
  | succ n ih =>
      have hsplit : (∃ i < n + 1, probed remoteip i ∧ (map (remoteip.take (i + 1))).isSome) ↔
          (probed remoteip n ∧ (map (remoteip.take (n + 1))).isSome) ∨
            ∃ i < n, probed remoteip i ∧ (map (remoteip.take (i + 1))).isSome := by
        constructor
        · rintro ⟨i, hi, h⟩
          rcases Nat.lt_succ_iff_lt_or_eq.mp hi with hi | rfl
          · exact Or.inr ⟨i, hi, h⟩
          · exact Or.inl h
        · rintro (h | ⟨i, hi, h⟩)
          · exact ⟨n, Nat.lt_succ_self n, h⟩
          · exact ⟨i, Nat.lt_succ_of_lt hi, h⟩
      rw [hsplit, searchIp]
      split
      · rename_i hprobe
        cases hmap : map (remoteip.take (n + 1)) with
        | some x => simp [probed, hprobe]
        | none =>
            rw [← ih]
            simp
      · rename_i hprobe
        rw [← ih]
        simp [probed, hprobe]

/-- In terms of prefixes. -/
theorem probed_iff {map : Bytes → Option Bytes} {remoteip : Bytes} (hne : remoteip ≠ []) :
    (∃ i < remoteip.length, probed remoteip i ∧ (map (remoteip.take (i + 1))).isSome) ↔
      (map remoteip).isSome ∨ ∃ p, p ++ [46] <+: remoteip ∧ (map (p ++ [46])).isSome := by
  have hpos := List.length_pos_of_ne_nil hne
  constructor
  · rintro ⟨i, hi, hlast | hdot, hmap⟩
    · rw [hlast, List.take_length] at hmap
      exact Or.inl hmap
    · right
      have htake : remoteip.take (i + 1) = remoteip.take i ++ [46] := by
        rw [List.take_add_one, hdot]
        rfl
      exact ⟨remoteip.take i, htake ▸ List.take_prefix _ _, htake ▸ hmap⟩
  · rintro (hmap | ⟨p, ⟨t, ht⟩, hmap⟩)
    · exact ⟨remoteip.length - 1, by omega, Or.inl (by omega), by
        rw [Nat.sub_add_cancel hpos, List.take_length]
        exact hmap⟩
    · refine ⟨p.length, ?_, Or.inr ?_, ?_⟩
      · rw [← ht]
        simp
      · rw [← ht]
        simp
      · rw [← ht, List.take_append_of_le_length (by simp), List.take_of_length_le (by simp)]
        exact hmap

theorem searchHost_isSome (map : Bytes → Option Bytes) (first : Bool) (host : Bytes)
    (relayclient : Option Bytes) :
    (searchHost map first host relayclient).isSome ↔
      (first = true ∧ (map host).isSome) ∨
        (∃ t, 46 :: t <:+ host ∧ (map (46 :: t)).isSome) ∨ (map []).isSome := by
  induction host generalizing first relayclient with
  | nil => cases first <;> simp [searchHost]
  | cons ch rest ih =>
      have hsuffix : (∃ t, 46 :: t <:+ ch :: rest ∧ (map (46 :: t)).isSome) ↔
          (ch = 46 ∧ (map (ch :: rest)).isSome) ∨
            ∃ t, 46 :: t <:+ rest ∧ (map (46 :: t)).isSome := by
        simp only [List.suffix_cons_iff, List.cons.injEq]
        constructor
        · rintro ⟨t, ⟨rfl, rfl⟩ | ht, hmap⟩
          · exact Or.inl ⟨rfl, hmap⟩
          · exact Or.inr ⟨t, ht, hmap⟩
        · rintro (⟨rfl, hmap⟩ | ⟨t, ht, hmap⟩)
          · exact ⟨rest, Or.inl ⟨rfl, rfl⟩, hmap⟩
          · exact ⟨t, Or.inr ht, hmap⟩
      rw [hsuffix, searchHost]
      split
      · rename_i hprobe
        cases hmap : map (ch :: rest) with
        | some x => rcases hprobe with hprobe | hprobe <;> simp [hprobe]
        | none =>
            rw [ih]
            simp
      · rename_i hprobe
        simp only [not_or, Bool.not_eq_true] at hprobe
        rw [ih]
        simp [hprobe.1, hprobe.2]

/-! ## The result -/

theorem setup_isSome (c : Connection) :
    (setup c).isSome ↔ c.RELAYCLIENT.isSome ∨ HostListed c ∨
      (c.relaydomains = none ∧ c.remoteip ≠ [] ∧ IpListed c) := by
  rcases c with ⟨_ | x, ip, host, clients, domains⟩
  · -- without RELAYCLIENT: the last search decides
    have hip : ∀ map, clients = some map →
        ((searchIp map ip ip.length none).isSome ↔
          ip ≠ [] ∧ IpListed ⟨none, ip, host, clients, domains⟩) := by
      rintro map rfl
      rcases eq_or_ne ip [] with rfl | hne
      · simp [searchIp]
      · rw [searchIp_isSome, probed_iff hne]
        simp [IpListed, isListed, hne]
    have hno : clients = none → ¬ IpListed ⟨none, ip, host, clients, domains⟩ := by
      rintro rfl
      simp [IpListed, isListed]
    cases domains with
    | some map =>
        simp only [setup, open_control_files1, if_true]
        rw [searchHost_isSome]
        simp [HostListed, isListed]
    | none =>
        have hhost : ¬ HostListed ⟨none, ip, host, clients, none⟩ := by
          simp [HostListed, isListed]
        cases clients with
        | some map =>
            simp only [setup, open_control_files1, if_true]
            rw [hip map rfl]
            simp [hhost]
        | none =>
            simp only [setup, open_control_files1, if_true]
            simp [hhost, hno rfl]
  · simp [setup, open_control_files1]

/-- **The union.** `relayclient` is set for the clients that one of the three sources names, in
exactly these cases: the environment or relaydomains names the client; or relayclients does not;
or there is no relaydomains (and the address is not the empty text, which is never looked up). -/
theorem setup_union (c : Connection) :
    ((setup c).isSome ↔ c.RELAYCLIENT.isSome ∨ IpListed c ∨ HostListed c) ↔
      c.RELAYCLIENT.isSome ∨ HostListed c ∨ ¬ IpListed c ∨
        (c.relaydomains = none ∧ c.remoteip ≠ []) := by
  rw [setup_isSome]
  tauto

/-- A client whose address is in relayclients, at a host whose relaydomains does not have its
name. -/
def listedClient : Connection where
  remoteip := asc "10.0.0.1"
  remotehost := asc "mail.example.com"
  relayclients := some fun s => if s = asc "10.0.0." then some [] else none
  relaydomains := some fun s => if s = asc ".example.org" then some [] else none

theorem setup_loses_client :
    ¬ ((setup listedClient).isSome ↔
      listedClient.RELAYCLIENT.isSome ∨ IpListed listedClient ∨ HostListed listedClient) := by
  intro h
  have hip : IpListed listedClient :=
    Or.inr ⟨asc "10.0.0", ⟨asc "1", by decide⟩, _, rfl, by decide +kernel⟩
  exact absurd (h.mpr (Or.inr (Or.inl hip))) (by decide +kernel)

end IndimailMta.Smtpd
