/-
# P2p.Bans -- the list of bans (`p2p/server.go`)

A ban is on an IPv4 address or on the /64 of an IPv6 address, under the 16 bytes of the masked
address.  While it is in force further bans of the prefix are ignored, so that it lasts for the
time it was given first, whatever is called (`ban_holds`); and nobody is banned for what another
prefix did (`banned_cause`).
-/
import P2PoolObserver.P2p.NetIp
import Mathlib.Logic.Function.Basic

namespace P2PoolObserver

open Lib

structure BanEntry where
  expiration : UInt64
  error : String
  deriving DecidableEq

abbrev BanList : Type := Octets 16 → Option BanEntry

namespace Addr

/-- The address of `ip.Unmap().Prefix(64)`, or `Prefix(32)` for an IPv4 address. -/
def banPrefix (ip : Addr) : Addr :=
  match ip.unmap with
  | v4 octets => v4 octets
  | v6 octets _ => v6 ⟨octets.1.take 8 ++ List.replicate 8 0, by simp [octets.2]⟩ ""

def banKey (ip : Addr) : Octets 16 := ip.banPrefix.as16

theorem banPrefix_cases (ip : Addr) : (∃ octets, ip.banPrefix = v4 octets) ∨
    ∃ front octets, ip.banPrefix = v6 octets "" ∧ front.length = 8 ∧ octets.1 = front ++ List.replicate 8 0 := by
  unfold banPrefix
  cases ip.unmap with
  | v4 octets => exact .inl ⟨octets, rfl⟩
  | v6 octets zone => exact .inr ⟨octets.1.take 8, _, rfl, by simp [octets.2], rfl⟩

/-- The key of a /64 is that of no IPv4 address: its bytes 10 and 11 are zero. -/
theorem banKey_inj {ip ip' : Addr} (same : ip.banKey = ip'.banKey) : ip.banPrefix = ip'.banPrefix := by
  have apart : ∀ {octets : Octets 4} {front : Bytes}, front.length = 8 →
      mapping ++ octets.1 ≠ front ++ List.replicate 8 0 := by
    intro octets front size equal
    have tail := congrArg (List.drop 8) equal
    rw [List.drop_left' size] at tail
    exact absurd (congrArg (fun l : Bytes => (l.drop 2).head?) tail) nofun
  unfold banKey at same
  rcases banPrefix_cases ip with ⟨octets, eq⟩ | ⟨front, octets, eq, size, bytes⟩ <;>
    rcases banPrefix_cases ip' with ⟨octets', eq'⟩ | ⟨front', octets', eq', size', bytes'⟩ <;>
    rw [eq, eq'] at same ⊢
  · exact congrArg v4 (Subtype.ext (List.append_cancel_left (congrArg Subtype.val same)))
  · exact absurd ((congrArg Subtype.val same).trans bytes') (apart size')
  · exact absurd ((congrArg Subtype.val same).symm.trans bytes) (apart size)
  · exact congrArg (v6 · "") same

end Addr

section Server

variable (isLoopback : Addr → Bool)

def unexpired (now : UInt64) : Option BanEntry → Option BanEntry
  | none => none
  | some b => if now ≥ b.expiration then none else some b

def isBanned (now : UInt64) (bans : BanList) (ip : Addr) : Option BanEntry :=
  if isLoopback ip then none else unexpired now (bans ip.banKey)

/-- A call of `Ban`: the clock when it asks `IsBanned` and when it enters the ban. -/
structure BanRequest where
  checked : UInt64
  now : UInt64
  ip : Addr
  seconds : UInt64
  err : String

def BanRequest.entry (r : BanRequest) : BanEntry := ⟨r.now + r.seconds, r.err⟩

def ban (bans : BanList) (r : BanRequest) : BanList :=
  if (isBanned isLoopback r.checked bans r.ip).isSome then bans
  else if !isLoopback r.ip then Function.update bans r.ip.banKey (some r.entry)
  else bans

def cleanupBanList (now : UInt64) (bans : BanList) : BanList := fun k => unexpired now (bans k)

inductive BanCall where
  | request (r : BanRequest)
  | cleanup (now : UInt64)

def BanCall.run (bans : BanList) : BanCall → BanList
  | request r => ban isLoopback bans r
  | cleanup now => cleanupBanList now bans

/-- The clock at which a call looks at the entries. -/
def BanCall.time : BanCall → UInt64
  | request r => r.checked
  | cleanup now => now

def runBans (bans : BanList) (calls : List BanCall) : BanList := calls.foldl (BanCall.run isLoopback) bans

variable {isLoopback} {bans : BanList} {r : BanRequest} {ip : Addr} {entry : BanEntry} {time : UInt64} {k : Octets 16}
  {calls : List BanCall}

theorem unexpired_eq_some {b : Option BanEntry} :
    unexpired time b = some entry ↔ b = some entry ∧ time < entry.expiration := by
  cases b with
  | none => simp [unexpired]
  | some b =>
    simp only [unexpired, ← UInt64.not_le, Option.some.injEq, Option.ite_none_left_eq_some]
    constructor <;> rintro ⟨_, _⟩ <;> simp_all

theorem isBanned_eq_some : isBanned isLoopback time bans ip = some entry ↔
    isLoopback ip = false ∧ bans ip.banKey = some entry ∧ time < entry.expiration := by
  rw [isBanned, Option.ite_none_left_eq_some, unexpired_eq_some, Bool.not_eq_true]

/-- A call leaves an entry alone, unless it has expired; what it enters is a ban of the prefix. -/
theorem BanCall.run_cases (call : BanCall) (bans : BanList) (k : Octets 16) : call.run isLoopback bans k = bans k ∨
    (∀ entry, bans k = some entry → entry.expiration ≤ call.time) ∧ ∀ entry, call.run isLoopback bans k = some entry →
      ∃ r, call = request r ∧ isLoopback r.ip = false ∧ r.ip.banKey = k ∧ r.entry = entry := by
  cases call with
  | cleanup now =>
    cases found : bans k with
    | none => exact .inl (congrArg (unexpired now) found)
    | some b =>
      have run : (cleanup now).run isLoopback bans k = if now ≥ b.expiration then none else some b :=
        congrArg (unexpired now) found
      rw [run]
      split_ifs with expired
      · exact .inr ⟨fun _ same => Option.some.inj same ▸ expired, nofun⟩
      · exact .inl rfl
  | request r =>
    show ban isLoopback bans r k = _ ∨ _ ∧ ∀ entry, ban isLoopback bans r k = _ → _
    unfold ban
    split_ifs with banned awake
    · exact .inl rfl
    · have awake := Bool.not_eq_true' _ ▸ awake
      by_cases here : k = r.ip.banKey
      · subst here
        refine .inr ⟨fun entry found => UInt64.not_lt.mp fun early => banned ?_, fun entry entered => ?_⟩
        · exact Option.isSome_of_eq_some (isBanned_eq_some.mpr ⟨awake, found, early⟩)
        · rw [Function.update_self] at entered
          exact ⟨r, rfl, awake, rfl, Option.some.inj entered⟩
      · exact .inl (Function.update_of_ne here _ _)
    · exact .inl rfl

theorem runBans_of_lt (found : bans k = some entry) (early : ∀ call ∈ calls, call.time < entry.expiration) :
    runBans isLoopback bans calls k = some entry := by
  induction calls generalizing bans with
  | nil => exact found
  | cons call rest ih =>
    refine ih ?_ fun c mem => early c (.tail _ mem)
    rcases call.run_cases bans k with same | ⟨expired, -⟩
    · exact same.trans found
    · exact absurd (early call (.head _)) (UInt64.not_lt.mpr (expired entry found))

theorem runBans_cause (found : runBans isLoopback bans calls k = some entry) : bans k = some entry ∨
    ∃ r, .request r ∈ calls ∧ isLoopback r.ip = false ∧ r.ip.banKey = k ∧ r.entry = entry := by
  induction calls generalizing bans with
  | nil => exact .inl found
  | cons call rest ih =>
    rcases ih found with before | ⟨r, mem, cause⟩
    · rcases call.run_cases bans k with same | ⟨-, entered⟩
      · exact .inl (same.symm.trans before)
      · obtain ⟨r, rfl, cause⟩ := entered entry before
        exact .inr ⟨r, List.mem_cons_self, cause⟩
    · exact .inr ⟨r, List.mem_cons_of_mem _ mem, cause⟩

variable (isLoopback) in
/-- Whatever calls come before the expiration, every address of the prefix is banned with `entry`. -/
def InForce (bans : BanList) (masked : Addr) (entry : BanEntry) : Prop :=
  ∀ calls : List BanCall, (∀ call ∈ calls, call.time < entry.expiration) → ∀ time < entry.expiration,
    ∀ ip, isLoopback ip = false → ip.banPrefix = masked → isBanned isLoopback time (runBans isLoopback bans calls) ip = some entry

theorem inForce_of_entry (found : bans ip.banKey = some entry) : InForce isLoopback bans ip.banPrefix entry := by
  intro calls early time before ip' awake same
  refine isBanned_eq_some.mpr ⟨awake, runBans_of_lt ?_ early, before⟩
  rwa [Addr.banKey, same]

/-- After `Ban` the entry there was is in force, or the new one if there was none. -/
theorem ban_holds (awake : isLoopback r.ip = false) : ∃ entry,
    (isBanned isLoopback r.checked bans r.ip = some entry ∨
      isBanned isLoopback r.checked bans r.ip = none ∧ entry = r.entry) ∧
    InForce isLoopback (ban isLoopback bans r) r.ip.banPrefix entry := by
  unfold ban
  cases banned : isBanned isLoopback r.checked bans r.ip with
  | some entry => exact ⟨entry, .inl rfl, inForce_of_entry (isBanned_eq_some.mp banned).2.1⟩
  | none => exact ⟨r.entry, .inr ⟨rfl, rfl⟩, inForce_of_entry (by simp [awake])⟩

/-- Whoever is banned was banned by a call for the same IPv4 address or the same /64. -/
theorem banned_cause (banned : isBanned isLoopback time (runBans isLoopback (fun _ => none) calls) ip = some entry) :
    ∃ r, .request r ∈ calls ∧ isLoopback r.ip = false ∧ r.ip.banPrefix = ip.banPrefix ∧ r.entry = entry ∧
      time < r.now + r.seconds := by
  obtain ⟨-, found, early⟩ := isBanned_eq_some.mp banned
  obtain ⟨r, mem, awake, key, rfl⟩ := (runBans_cause found).resolve_left nofun
  exact ⟨r, mem, awake, Addr.banKey_inj key, rfl, early⟩

end Server

def tenMinutes : BanRequest := ⟨0, 0, default, 600, "first"⟩
def oneDay : BanRequest := ⟨120, 120, default, 86400, "again"⟩

/-- A ban for a day, two minutes after one for ten minutes, does not prolong it. -/
theorem ban_holds_again : isBanned (fun _ => false) 500
    (runBans (fun _ => false) (ban (fun _ => false) (fun _ => none) tenMinutes) [.request oneDay]) default =
      some ⟨600, "first"⟩ := by
  obtain ⟨entry, which, holds⟩ := @ban_holds (fun _ => false) (fun _ => none) tenMinutes rfl
  rcases which with banned | ⟨-, rfl⟩
  · cases banned
  · exact holds [.request oneDay] (by decide) 500 (by decide) default rfl rfl

theorem banned_cause_again : ∃ r, .request r ∈ [BanCall.request tenMinutes, .request oneDay] ∧
    r.ip.banPrefix = Addr.banPrefix default ∧ r.entry = ⟨600, "first"⟩ ∧ 500 < r.now + r.seconds := by
  have banned : isBanned (fun _ => false) 500
      (runBans (fun _ => false) (fun _ => none) [.request tenMinutes, .request oneDay]) default = some ⟨600, "first"⟩ := by
    decide +kernel
  obtain ⟨r, mem, -, cause⟩ := banned_cause banned
  exact ⟨r, mem, cause⟩

end P2PoolObserver
