import Mathlib.Data.List.TakeWhile
import IndimailMta.Environment.ParseEnv
import IndimailMta.Lib.Settings
import IndimailMta.Lib.Splits

/-!
# Entries for a domain

`getDomainToken` looks in a control file for the entry of a domain. An entry may have environment
strings behind its command. They are set before it is known whether the entry is for the domain,
and the environment that is kept to be put back is the one in which they are set already: nothing
is put back.

`Kept` says of the strings when this makes no difference: the variables that are set by entries
in front of the one that is meant are set by it again, or are left as they were, and `QREGEX` does
not make one of those entries match. Nothing is asked of the two ways to match.
-/

namespace IndimailMta.DomainToken

open IndimailMta Settings Lib.Splits

inductive Dtype where
  | unknown
  | local_delivery
  | remote_delivery
  | local_or_remote
  deriving DecidableEq, Repr

/-- The library, for an environment of type `E`; `regex` and `wildmat` tell whether a pattern
matches a domain. A variable's name has no `=`: a string without one sets no variable. -/
structure Library (E : Type) where
  env_get : Bytes → E → Option Bytes
  env_put : Bytes → E → E
  env_unset : Bytes → E → E
  scan_int : Bytes → Int
  regex : Bytes → Bytes → Bool
  wildmat : Bytes → Bytes → Bool
  get_put : ∀ name value environ n, 61 ∉ name → 61 ∉ n →
    env_get n (env_put (name ++ 61 :: value) environ) =
      if name = n then some value else env_get n environ
  get_put_bare : ∀ s environ n, 61 ∉ s → 61 ∉ n → env_get n (env_put s environ) = env_get n environ
  get_unset : ∀ name environ n, 61 ∉ n →
    env_get n (env_unset name environ) = if name = n then none else env_get n environ

variable {E : Type} (lib : Library E)

/-! ## `parse_env` -/

def isspace (b : Byte) : Bool := b = 32 || (9 ≤ b && b ≤ 13)

/-- The end of an environment string. -/
def assign (ptr2 : Bytes) (environ : E) : E :=
  if ptr2.getLast? = some 61 then
    if ptr2.dropLast = [] then environ else lib.env_unset ptr2.dropLast environ
  else
    let ptr2 := ptr2.dropWhile isspace
    if ptr2 = [] then environ else lib.env_put ptr2 environ

/-- The loop of `parse_env`: `ptr2` is the string up to where the loop is. -/
def envLoop : Bytes → Bytes → E → E
  | ptr2, [], environ => assign lib ptr2 environ
  | ptr2, b :: rest, environ =>
      if b = 44 then
        if ptr2.getLast? = some 92 then
          -- the comma takes the place of the backslash, and the byte behind it is not looked at
          match rest with
          | [] => assign lib (ptr2.dropLast ++ [44]) environ
          | c :: rest => envLoop (ptr2.dropLast ++ [44, c]) rest environ
        else envLoop [] rest (assign lib ptr2 environ)
      else envLoop (ptr2 ++ [b]) rest environ

def parse_env (envStrings : Bytes) (environ : E) : E := envLoop lib [] envStrings environ

/-! ## `getDomainToken` -/

/-- The length of the directive in front of a command. -/
def directive (p1 : Bytes) : Nat :=
  if (asc "remote:").isPrefixOf p1 then 7
  else if (asc "local:").isPrefixOf p1 then 6
  else 0

/-- What is behind the colon that ends the command. -/
def envStrings (p1 : Bytes) : Option Bytes :=
  match (p1.drop (directive p1)).dropWhile (· ≠ 58) with
  | [] => none
  | _ :: strings => some strings

def use_regex (qregex : Option Bytes) : Bool :=
  match qregex with
  | some x => lib.scan_int x ≠ 0
  | none => false

/-- Does the pattern match the domain, with a value of `QREGEX`? -/
def isMatch (domain : Bytes) (qregex : Option Bytes) (ptr : Bytes) : Bool :=
  ptr = domain ||
    if use_regex lib qregex then lib.regex ptr domain else lib.wildmat ptr domain

/-- Where the command begins, if the entry is for the kind of delivery. -/
def admitted (delivery : Dtype) (p1 : Bytes) : Option Nat :=
  let isRemote := (asc "remote:").isPrefixOf p1
  let isLocal := (asc "local:").isPrefixOf p1
  match delivery with
  | .remote_delivery => if isRemote then some 7 else if isLocal then none else some 0
  | .local_delivery => if isLocal then some 6 else if isRemote then none else some 0
  | .local_or_remote => if isLocal then some 6 else if isRemote then some 7 else some 0
  | .unknown => if !isLocal && !isRemote then some 0 else none

variable (delivery : Dtype) (domain : Bytes)

/-- One entry: where the command begins in it and the command, if it is the one, and the
environment. -/
def entry (ptr : Bytes) (environ : E) : Option (Nat × Bytes) × E :=
  match ptr.dropWhile (· ≠ 58) with
  | [] => (none, environ)
  | _ :: p1 =>
      let pattern := ptr.takeWhile (· ≠ 58)
      let environ := (envStrings p1).elim environ (parse_env lib · environ)
      -- the strings are set already in the environment that is to be put back
      let orig_env := (envStrings p1).map fun _ => environ
      if isMatch lib domain (lib.env_get (asc "QREGEX") environ) pattern then
        ((admitted delivery p1).map fun n =>
          (pattern.length + 1 + n, (p1.drop n).takeWhile (· ≠ 58)), environ)
      else (none, orig_env.getD environ)

/-- The loop over the entries: where the command begins, the command, and the environment. -/
def scanEntries (sa : Bytes) : Nat → Nat → E → Option (Nat × Bytes) × E
  | 0, _, environ => (none, environ)
  | fuel + 1, len, environ =>
      if len < sa.length then
        let ptr := cstr (sa.drop len)
        match entry lib delivery domain ptr environ with
        | (some (p, command), environ) => (some (len + p, command), environ)
        | (none, environ) => scanEntries sa fuel (len + (ptr.length + 1)) environ
      else (none, environ)

def getDomainToken (sa : Bytes) (environ : E) : Option (Nat × Bytes) × E :=
  scanEntries lib delivery domain sa sa.length 0 environ

/-! ## What is meant -/

/-- The environment with the strings of an entry. -/
def apply (ptr : Bytes) (environ : E) : E :=
  match ptr.dropWhile (· ≠ 58) with
  | [] => environ
  | _ :: p1 => (envStrings p1).elim environ (parse_env lib · environ)

/-- Where the command begins in an entry and the command, if its pattern matches the domain with a
value of `QREGEX` and its directive admits the kind of delivery. -/
def token (qregex : Option Bytes) (ptr : Bytes) : Option (Nat × Bytes) :=
  match ptr.dropWhile (· ≠ 58) with
  | [] => none
  | _ :: p1 =>
      if isMatch lib domain qregex (ptr.takeWhile (· ≠ 58)) then
        (admitted delivery p1).map fun n =>
          ((ptr.takeWhile (· ≠ 58)).length + 1 + n, (p1.drop n).takeWhile (· ≠ 58))
      else none

/-- The first entry that is the one, each entry with its own strings and no others, and the
environment with the strings of that entry. -/
def meant (environ : E) : Nat → List Bytes → Option (Nat × Bytes) × E
  | _, [] => (none, environ)
  | len, t :: ts =>
      match token lib delivery domain (lib.env_get (asc "QREGEX") (apply lib t environ)) t with
      | some (p, command) => (some (len + p, command), apply lib t environ)
      | none => meant environ (len + (t.length + 1)) ts

/-- The same entry is found, and every variable has the same value. -/
def Same (r r' : Option (Nat × Bytes) × E) : Prop :=
  r.1 = r'.1 ∧ ∀ n, 61 ∉ n → lib.env_get n r.2 = lib.env_get n r'.2

/-! ## Variables that are kept -/

/-- The variable that a call sets and its value, none where it is unset. -/
def setting : Environment.Call → Option (Bytes × Option Bytes)
  | .put s =>
      if 61 ∈ s then some (s.takeWhile (· ≠ 61), some (s.dropWhile (· ≠ 61)).tail) else none
  | .unset s => some (s, none)

/-- The variables that the strings of an entry set, in their order. -/
def settings (ptr : Bytes) : List (Bytes × Option Bytes) :=
  match ptr.dropWhile (· ≠ 58) with
  | [] => []
  | _ :: p1 => (envStrings p1).elim [] fun s => (Environment.scan false [] s).filterMap setting

/-- The value of `QREGEX` with the strings of the entry and no others. -/
def ownQregex (environ : E) (t : Bytes) : Option Bytes :=
  (lastSet (asc "QREGEX") (settings t)).getD (lib.env_get (asc "QREGEX") environ)

/-- The entries in front of the one that is meant. -/
def passed (environ : E) (ts : List Bytes) : List Bytes :=
  ts.takeWhile fun t => (token lib delivery domain (ownQregex lib environ t) t).isNone

/-- The one that is meant. -/
def returned (environ : E) (ts : List Bytes) : Option Bytes :=
  ts.find? fun t => (token lib delivery domain (ownQregex lib environ t) t).isSome

/-- An entry that does not set `QREGEX` does not match with the value that strings in front of it
set last; `seen` are those. -/
def Unmatched : List (Bytes × Option Bytes) → List Bytes → Prop
  | _, [] => True
  | seen, t :: ts =>
      (asc "QREGEX" ∉ keys (settings t) → ∀ x ∈ lastSet (asc "QREGEX") seen,
        token lib delivery domain x t = none) ∧
      Unmatched (seen ++ settings t) ts

/-- The strings of the entries that are passed over make no difference: none of these entries
matches through them, and a variable that they set is set again by the entry that is meant, or is
left with the value that it had. -/
structure Kept (environ : E) (ts : List Bytes) : Prop where
  unmatched : Unmatched lib delivery domain [] (passed lib delivery domain environ ts)
  values : ∀ n ∈ keys ((passed lib delivery domain environ ts).flatMap settings), 61 ∉ n →
    n ∈ keys ((returned lib delivery domain environ ts).toList.flatMap settings) ∨
      lastSet n ((passed lib delivery domain environ ts).flatMap settings) =
        some (lib.env_get n environ)

variable {lib delivery domain} {environ acc : E} {t : Bytes} {ts : List Bytes}

/-! ## The strings of an entry -/

/-- A string with a `=`, at the first of them. -/
theorem cut_eq {s : Bytes} (h : 61 ∈ s) :
    61 ∉ s.takeWhile (· ≠ 61) ∧ s.takeWhile (· ≠ 61) ++ 61 :: (s.dropWhile (· ≠ 61)).tail = s := by
  refine ⟨fun hin => by simpa using List.mem_takeWhile_imp hin, ?_⟩
  have hcut := List.takeWhile_append_dropWhile (p := fun b : Byte => decide (b ≠ 61)) (l := s)
  have hstop := head_dropWhile (fun b : Byte => decide (b ≠ 61)) s
  cases hd : s.dropWhile (fun b : Byte => decide (b ≠ 61)) with
  | nil =>
      have hnone := List.dropWhile_eq_nil_iff.mp hd 61 h
      simp at hnone
  | cons c value =>
      rw [hd] at hcut hstop
      obtain rfl : c = 61 := by simpa using hstop
      exact hcut

/-- A call of `env_put` or `env_unset`. -/
def call (lib : Library E) (environ : E) : Environment.Call → E
  | .put s => lib.env_put s environ
  | .unset s => lib.env_unset s environ

theorem assign_eq (ptr2 : Bytes) (environ : E) :
    assign lib ptr2 environ = (Environment.close ptr2).foldl (call lib) environ := by
  have hcall : ∀ (mk : Bytes → Environment.Call) (s : Bytes),
      (Environment.callOf mk s).foldl (call lib) environ =
        if s = [] then environ else call lib environ (mk s) := by
    intro mk s
    rw [Environment.callOf]
    split <;> rfl
  rw [assign, Environment.close]
  split
  · rw [hcall]
    rfl
  · rw [hcall]
    have hspace : isspace = Environment.isspace := by
      funext b
      rw [isspace, Environment.isspace, Bool.or_comm]
    rw [hspace]
    rfl

/-- The loop makes the calls of the text. -/
theorem envLoop_eq (ptr2 rest : Bytes) (environ : E) :
    envLoop lib ptr2 rest environ =
      (Environment.scan false ptr2 rest).foldl (call lib) environ := by
  fun_induction envLoop lib ptr2 rest environ with
  | case1 ptr2 environ => rw [assign_eq, Environment.scan]
  | case2 ptr2 environ h92 =>
      rw [assign_eq, Environment.scan]
      simp [h92, Environment.scan]
  | case3 ptr2 environ h92 c rest ih =>
      rw [ih, Environment.scan]
      simp [h92, Environment.scan]
  | case4 ptr2 rest environ h92 ih =>
      rw [ih, assign_eq, Environment.scan]
      simp [h92]
  | case5 ptr2 b rest environ h44 ih =>
      rw [ih, Environment.scan]
      simp [h44]

theorem env_get_call {n : Bytes} (hn : 61 ∉ n) (c : Environment.Call) (environ : E) :
    lib.env_get n (call lib environ c) =
      (lastSet n (setting c).toList).getD (lib.env_get n environ) := by
  cases c with
  | unset s =>
      rw [call, lib.get_unset s environ n hn, setting, Option.toList_some, lastSet, lastSet_nil]
      split <;> rfl
  | put s =>
      rw [call, setting]
      by_cases h61 : 61 ∈ s
      · obtain ⟨hname, hcut⟩ := cut_eq h61
        have hput := lib.get_put (s.takeWhile (· ≠ 61)) (s.dropWhile (· ≠ 61)).tail environ n hname hn
        rw [hcut] at hput
        rw [hput, if_pos h61, Option.toList_some, lastSet, lastSet_nil]
        split <;> rfl
      · rw [if_neg h61, lib.get_put_bare s environ n h61 hn]
        rfl

theorem env_get_calls {n : Bytes} (hn : 61 ∉ n) (cs : List Environment.Call) (environ : E) :
    lib.env_get n (cs.foldl (call lib) environ) =
      (lastSet n (cs.filterMap setting)).getD (lib.env_get n environ) := by
  induction cs generalizing environ with
  | nil => rfl
  | cons c cs ih =>
      have hcut : (c :: cs).filterMap setting = (setting c).toList ++ cs.filterMap setting := by
        rw [List.filterMap_cons]
        cases setting c <;> rfl
      rw [List.foldl_cons, ih, env_get_call hn, hcut, getD_append]

/-- A variable has the value that the strings of the entry set last. -/
theorem env_get_apply {n : Bytes} (hn : 61 ∉ n) (t : Bytes) (environ : E) :
    lib.env_get n (apply lib t environ) =
      (lastSet n (settings t)).getD (lib.env_get n environ) := by
  rw [apply, settings]
  cases t.dropWhile (· ≠ 58) with
  | nil => rfl
  | cons c p1 =>
      simp only
      cases envStrings p1 with
      | none => rfl
      | some s =>
          rw [Option.elim_some, Option.elim_some, parse_env, envLoop_eq]
          exact env_get_calls hn _ _

theorem qregex_name : 61 ∉ asc "QREGEX" := by decide

theorem env_get_own (t : Bytes) (environ : E) :
    lib.env_get (asc "QREGEX") (apply lib t environ) = ownQregex lib environ t :=
  env_get_apply qregex_name t environ

/-! ## One entry -/

/-- Nothing is put back. -/
theorem entry_eq (t : Bytes) (environ : E) : entry lib delivery domain t environ =
    (token lib delivery domain (ownQregex lib environ t) t, apply lib t environ) := by
  rw [← env_get_own]
  rw [entry, token, apply]
  cases t.dropWhile (· ≠ 58) with
  | nil => rfl
  | cons c p1 =>
      simp only
      split
      · rfl
      · cases envStrings p1 <;> rfl

theorem admitted_le {p1 : Bytes} {n : Nat} (h : admitted delivery p1 = some n) :
    n ≤ p1.length := by
  have hremote : (asc "remote:").isPrefixOf p1 = true → 7 ≤ p1.length := fun h =>
    (List.isPrefixOf_iff_prefix.mp h).length_le
  have hlocal : (asc "local:").isPrefixOf p1 = true → 6 ≤ p1.length := fun h =>
    (List.isPrefixOf_iff_prefix.mp h).length_le
  cases delivery with
  | unknown =>
      simp only [admitted] at h
      split at h
      · obtain rfl := Option.some.inj h
        exact Nat.zero_le _
      · cases h
  | local_delivery =>
      simp only [admitted] at h
      split at h
      · obtain rfl := Option.some.inj h
        exact hlocal ‹_›
      · split at h
        · cases h
        · obtain rfl := Option.some.inj h
          exact Nat.zero_le _
  | remote_delivery =>
      simp only [admitted] at h
      split at h
      · obtain rfl := Option.some.inj h
        exact hremote ‹_›
      · split at h
        · cases h
        · obtain rfl := Option.some.inj h
          exact Nat.zero_le _
  | local_or_remote =>
      simp only [admitted] at h
      split at h
      · obtain rfl := Option.some.inj h
        exact hlocal ‹_›
      · split at h
        · obtain rfl := Option.some.inj h
          exact hremote ‹_›
        · obtain rfl := Option.some.inj h
          exact Nat.zero_le _

/-- A command is inside its entry. -/
theorem token_le {p : Nat} {command : Bytes} {qregex : Option Bytes}
    (h : token lib delivery domain qregex t = some (p, command)) : p ≤ t.length := by
  rw [token] at h
  split at h
  · cases h
  · rename_i c p1 hp1
    split at h
    · obtain ⟨n, hn, heq⟩ := Option.map_eq_some_iff.mp h
      obtain ⟨rfl, -⟩ := Prod.mk.inj heq
      have hle := admitted_le hn
      have hlen := congrArg List.length (List.takeWhile_append_dropWhile (p := (· ≠ 58)) (l := t))
      rw [hp1, List.length_append, List.length_cons] at hlen
      omega
    · cases h

/-! ## The loop -/

/-- The loop, over a list. -/
def scanList (lib : Library E) (delivery : Dtype) (domain : Bytes) :
    E → Nat → List Bytes → Option (Nat × Bytes) × E
  | environ, _, [] => (none, environ)
  | environ, len, t :: ts =>
      match token lib delivery domain (ownQregex lib environ t) t with
      | some (p, command) => (some (len + p, command), apply lib t environ)
      | none => scanList lib delivery domain (apply lib t environ) (len + (t.length + 1)) ts

theorem scanEntries_eq {sa : Bytes} (fuel : Nat) : ∀ {ts : List Bytes} {pre : Bytes} {environ : E},
    sa = pre ++ nuls ts → (∀ t ∈ ts, 0 ∉ t) → (nuls ts).length ≤ fuel →
    scanEntries lib delivery domain sa fuel pre.length environ =
      scanList lib delivery domain environ pre.length ts := by
  induction fuel with
  | zero =>
      intro ts pre environ h h0 hfuel
      have hlen := length_le_nuls ts
      obtain rfl : ts = [] := List.length_eq_zero_iff.mp (by omega)
      rfl
  | succ fuel ih =>
      intro ts pre environ h h0 hfuel
      rw [scanEntries]
      cases ts with
      | nil =>
          rw [nuls_nil, List.append_nil] at h
          rw [if_neg (by rw [h]; exact Nat.lt_irrefl _)]
          rfl
      | cons t ts =>
          rw [List.forall_mem_cons] at h0
          rw [nuls_cons] at h
          have hin : pre.length < sa.length := by
            rw [h, List.length_append, List.length_append, List.length_cons]
            omega
          have hptr : cstr (sa.drop pre.length) = t := by
            rw [h, List.drop_left, cstr_append _ h0.1]
          have hnext : pre.length + (t.length + 1) = (pre ++ (t ++ [0])).length := by
            simp
          rw [if_pos hin, hptr]
          simp only
          rw [entry_eq, scanList]
          cases token lib delivery domain (ownQregex lib environ t) t with
          | some r => rfl
          | none =>
              simp only
              rw [hnext]
              apply ih
              · rw [h]
                simp
              · exact h0.2
              · rw [nuls_cons, List.length_append, List.length_cons] at hfuel
                omega

/-! ## The loop and what is meant -/

theorem scanList_le {len p : Nat} {command : Bytes}
    (h : (scanList lib delivery domain environ len ts).1 = some (p, command)) : len ≤ p := by
  induction ts generalizing environ len with
  | nil => cases h
  | cons t ts ih =>
      rw [scanList] at h
      split at h
      · obtain ⟨rfl, -⟩ := Prod.mk.inj (Option.some.inj h)
        exact Nat.le_add_right _ _
      · exact Nat.le_trans (Nat.le_add_right _ _) (ih h)

theorem meant_le {len p : Nat} {command : Bytes}
    (h : (meant lib delivery domain environ len ts).1 = some (p, command)) : len ≤ p := by
  induction ts generalizing len with
  | nil => cases h
  | cons t ts ih =>
      rw [meant] at h
      split at h
      · obtain ⟨rfl, -⟩ := Prod.mk.inj (Option.some.inj h)
        exact Nat.le_add_right _ _
      · exact Nat.le_trans (Nat.le_add_right _ _) (ih h)

section Meant

variable {seen : List (Bytes × Option Bytes)}

/-- The variables are those of `environ`, with the strings `seen`. -/
def Holds (lib : Library E) (environ acc : E) (seen : List (Bytes × Option Bytes)) : Prop :=
  ∀ n, 61 ∉ n → lib.env_get n acc = (lastSet n seen).getD (lib.env_get n environ)

theorem Holds.apply (h : Holds lib environ acc seen) (t : Bytes) :
    Holds lib environ (apply lib t acc) (seen ++ settings t) := by
  intro n hn
  rw [env_get_apply hn, getD_append, h n hn]

/-- An entry that is passed over with its own strings is passed over with the strings in front of
it as well. -/
theorem Holds.passed_iff (h : Holds lib environ acc seen)
    (hown : token lib delivery domain (ownQregex lib environ t) t = none) :
    token lib delivery domain (ownQregex lib acc t) t = none ↔
      (asc "QREGEX" ∉ keys (settings t) → ∀ x ∈ lastSet (asc "QREGEX") seen,
        token lib delivery domain x t = none) := by
  rw [ownQregex] at hown ⊢
  rw [h _ qregex_name]
  cases hset : lastSet (asc "QREGEX") (settings t) with
  | some x =>
      rw [hset] at hown
      have hin : asc "QREGEX" ∈ keys (settings t) := by
        by_contra hout
        rw [lastSet_eq_none_iff.mpr hout] at hset
        cases hset
      exact iff_of_true hown fun hout => absurd hin hout
  | none =>
      rw [hset] at hown
      have hout := lastSet_eq_none_iff.mp hset
      cases hseen : lastSet (asc "QREGEX") seen with
      | none => exact iff_of_true hown fun _ x hx => by cases hx
      | some y =>
          constructor
          · intro hy _ x hx
            obtain rfl := Option.some.inj hx
            exact hy
          · intro hx
            exact hx hout y rfl

/-- The one that is meant, with its strings and those in front of it. -/
theorem Holds.returned_iff (h : Holds lib environ acc seen) (len : Nat) (ts : List Bytes)
    {p : Nat} {command : Bytes}
    (hown : token lib delivery domain (ownQregex lib environ t) t = some (p, command)) :
    Same lib (scanList lib delivery domain acc len (t :: ts))
        (some (len + p, command), DomainToken.apply lib t environ) ↔
      ∀ n, 61 ∉ n → (lastSet n (seen ++ settings t)).getD (lib.env_get n environ) =
        (lastSet n (settings t)).getD (lib.env_get n environ) := by
  have hvalues : (∀ n, 61 ∉ n → lib.env_get n (DomainToken.apply lib t acc) =
      lib.env_get n (DomainToken.apply lib t environ)) ↔
        ∀ n, 61 ∉ n → (lastSet n (seen ++ settings t)).getD (lib.env_get n environ) =
          (lastSet n (settings t)).getD (lib.env_get n environ) :=
    forall₂_congr fun n hn => by rw [h.apply t n hn, env_get_apply hn]
  rw [← hvalues, scanList]
  constructor
  · rintro ⟨hfound, hn⟩
    cases hacc : token lib delivery domain (ownQregex lib acc t) t with
    | some r =>
        rw [hacc] at hn
        exact hn
    | none =>
        rw [hacc] at hfound
        -- what is found begins behind this entry
        have hle := scanList_le hfound
        have hp := token_le hown
        omega
  · intro hn
    have hq : ownQregex lib acc t = ownQregex lib environ t := by
      rw [← env_get_own, ← env_get_own]
      exact hn _ qregex_name
    rw [hq, hown]
    exact ⟨rfl, hn⟩

/-- From any environment: what is found is what is meant in another. -/
theorem Holds.same_iff (h : Holds lib environ acc seen) (len : Nat) :
    Same lib (scanList lib delivery domain acc len ts)
        (meant lib delivery domain environ len ts) ↔
      Unmatched lib delivery domain seen (passed lib delivery domain environ ts) ∧
        ∀ n, 61 ∉ n →
          (lastSet n (seen ++ (passed lib delivery domain environ ts).flatMap settings ++
              (returned lib delivery domain environ ts).toList.flatMap settings)).getD
                (lib.env_get n environ) =
            (lastSet n ((returned lib delivery domain environ ts).toList.flatMap settings)).getD
              (lib.env_get n environ) := by
  induction ts generalizing acc len seen with
  | nil =>
      have hend : Same lib (scanList lib delivery domain acc len [])
          (meant lib delivery domain environ len []) ↔
            ∀ n, 61 ∉ n → lib.env_get n acc = lib.env_get n environ :=
        ⟨fun hs => hs.2, fun hn => ⟨rfl, hn⟩⟩
      rw [hend, passed, returned, List.takeWhile_nil, List.find?_nil]
      simp only [List.flatMap_nil, List.append_nil, Option.toList_none, lastSet_nil,
        Option.getD_none]
      constructor
      · intro hn
        exact ⟨trivial, fun n h61 => by rw [← h n h61, hn n h61]⟩
      · rintro ⟨-, hn⟩ n h61
        rw [h n h61, hn n h61]
  | cons t ts ih =>
      rw [meant, env_get_own, passed, returned, List.takeWhile_cons, List.find?_cons]
      cases hown : token lib delivery domain (ownQregex lib environ t) t with
      | some r =>
          -- the entry that is meant: what is left in the environment decides
          obtain ⟨p, command⟩ := r
          simp only [Option.isNone_some, Bool.false_eq_true, if_false, Option.isSome_some,
            List.flatMap_nil, List.append_nil, Option.toList_some, List.flatMap_cons]
          rw [h.returned_iff len ts hown]
          exact ⟨fun hn => ⟨trivial, hn⟩, fun hn => hn.2⟩
      | none =>
          simp only [Option.isNone_none, if_true, Option.isSome_none]
          rw [← passed, ← returned, Unmatched, ← h.passed_iff hown, scanList]
          cases hacc : token lib delivery domain (ownQregex lib acc t) t with
          | some r =>
              -- an entry to be passed over is returned, in front of any that is meant
              obtain ⟨p, command⟩ := r
              refine iff_of_false ?_ fun hx => by cases hx.1.1
              rintro ⟨hfound, -⟩
              have hle := meant_le hfound.symm
              have hp := token_le hacc
              omega
          | none =>
              simp only
              rw [ih (h.apply t), List.flatMap_cons, ← List.append_assoc]
              exact ⟨fun hx => ⟨⟨trivial, hx.1⟩, hx.2⟩, fun hx => ⟨hx.1.2, hx.2⟩⟩

end Meant

/-- **The entry that is found is the one that is meant, and its strings are what is set**, exactly
if the strings of the entries in front of it make no difference. -/
theorem getDomainToken_iff (lib : Library E) (delivery : Dtype) (domain : Bytes) (environ : E)
    {ts : List Bytes} (h0 : ∀ t ∈ ts, 0 ∉ t) :
    Same lib (getDomainToken lib delivery domain (nuls ts) environ)
        (meant lib delivery domain environ 0 ts) ↔
      Kept lib delivery domain environ ts := by
  have hlist : getDomainToken lib delivery domain (nuls ts) environ =
      scanList lib delivery domain environ 0 ts :=
    @scanEntries_eq _ _ _ _ _ _ _ [] _ rfl h0 (Nat.le_refl _)
  have hstart : Holds lib environ environ [] := fun n _ => rfl
  rw [hlist, hstart.same_iff]
  simp only [List.nil_append, getD_append_eq_iff]
  constructor
  · rintro ⟨hunmatched, hvalues⟩
    exact ⟨hunmatched, fun n hin hn => hvalues n hn hin⟩
  · rintro ⟨hunmatched, hvalues⟩
    exact ⟨hunmatched, fun n hn hin => hvalues n hin hn⟩

/-- Entries without strings are passed over without a trace. -/
theorem kept_of_plain (h : ∀ t ∈ passed lib delivery domain environ ts, settings t = []) :
    Kept lib delivery domain environ ts := by
  have hnone : (passed lib delivery domain environ ts).flatMap settings = [] :=
    List.flatMap_eq_nil_iff.mpr h
  have hunmatched : ∀ us : List Bytes, (∀ t ∈ us, settings t = []) →
      Unmatched lib delivery domain [] us := by
    intro us hus
    induction us with
    | nil => exact trivial
    | cons u us ih =>
        rw [List.forall_mem_cons] at hus
        rw [Unmatched, hus.1]
        refine ⟨?_, ih hus.2⟩
        intro _ x hx
        cases hx
  refine ⟨hunmatched _ h, fun n hin => ?_⟩
  rw [hnone] at hin
  cases hin

/-! ## Two control files -/

instance decideUnmatched (lib : Library E) (delivery : Dtype) (domain : Bytes) :
    (seen : List (Bytes × Option Bytes)) → (ts : List Bytes) →
      Decidable (Unmatched lib delivery domain seen ts)
  | _, [] => .isTrue trivial
  | seen, t :: ts =>
      haveI := decideUnmatched lib delivery domain (seen ++ settings t) ts
      inferInstanceAs (Decidable (_ ∧ _))

/-- Variables with their values, and patterns that are names or a star. -/
def vars : Library (Bytes → Option Bytes) where
  env_get n environ := environ n
  env_put s environ := fun n =>
    if 61 ∈ s ∧ s.takeWhile (· ≠ 61) = n then some (s.dropWhile (· ≠ 61)).tail else environ n
  env_unset name environ := fun n => if name = n then none else environ n
  scan_int x := if x = asc "1" then 1 else 0
  regex pattern domain := pattern = domain
  wildmat pattern domain := pattern = asc "*" || pattern = domain
  get_put := by
    intro name value environ n hname hn
    have hcut : ∀ b ∈ name, decide (b ≠ 61) = true := by
      intro b hb
      exact decide_eq_true fun h => hname (h ▸ hb)
    have htake : (name ++ 61 :: value).takeWhile (· ≠ 61) = name := takeWhile_stop hcut (by simp)
    have hdrop : (name ++ 61 :: value).dropWhile (· ≠ 61) = 61 :: value :=
      dropWhile_stop hcut (by simp)
    simp only [htake, hdrop]
    simp
  get_put_bare := by
    intro s environ n hs hn
    simp [hs]
  get_unset := fun _ _ _ _ => rfl

/-- `B` is set to 7. -/
def seven : Bytes → Option Bytes := fun n => if n = asc "B" then some (asc "7") else none

/-- What the first two of them set is set again by the third. -/
def setAgain : List Bytes :=
  [asc "x.org:one:B=1", asc "*:remote:two:A=9,QREGEX=0", asc "*:local:three:A=1,B=,QREGEX="]

theorem getDomainToken_local :
    Same vars (getDomainToken vars .local_delivery (asc "y.org") (nuls setAgain) seven)
      (meant vars .local_delivery (asc "y.org") seven 0 setAgain) :=
  (getDomainToken_iff vars .local_delivery (asc "y.org") _ (by decide +kernel)).mpr
    ⟨by decide +kernel, by decide +kernel⟩

def empty : Bytes → Option Bytes := fun _ => none

/-- The strings of an entry for another domain, and for the other kind of delivery, stay; they make
a later entry match otherwise. -/
theorem getDomainToken_stays :
    (getDomainToken vars .local_delivery (asc "y.org")
        (nuls [asc "x.org:one:A=1", asc "y.org:two"]) empty).1 = some (20, asc "two") ∧
    (getDomainToken vars .local_delivery (asc "y.org")
        (nuls [asc "x.org:one:A=1", asc "y.org:two"]) empty).2 (asc "A") = some (asc "1") ∧
    (meant vars .local_delivery (asc "y.org") empty 0
        [asc "x.org:one:A=1", asc "y.org:two"]).1 = some (20, asc "two") ∧
    (meant vars .local_delivery (asc "y.org") empty 0
        [asc "x.org:one:A=1", asc "y.org:two"]).2 (asc "A") = none ∧
    (getDomainToken vars .local_delivery (asc "y.org")
        (nuls [asc "y.org:remote:one:QREGEX=1", asc "*:two"]) empty).1 = none ∧
    (meant vars .local_delivery (asc "y.org") empty 0
        [asc "y.org:remote:one:QREGEX=1", asc "*:two"]).1 = some (28, asc "two") := by
  refine ⟨?_, ?_, ?_, ?_, ?_, ?_⟩ <;> decide +kernel

end IndimailMta.DomainToken
