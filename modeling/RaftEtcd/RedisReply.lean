import RaftEtcd.Lib.Resp
import RaftEtcd.StringMatch

/-! `server/redis_session.cpp`: what the commands answer. `GET` and `KEYS` write the values and the keys that
the store holds as bulk strings, each in a way of its own. -/
namespace RaftEtcd
variable {κ : Type}

/-! ### The code -/

/-- An element of a request, as the reader of hiredis hands it out. -/
inductive RedisElement
  | string (str : Bytes)
  | other (type : Nat)

/-- What a function that takes a C string sees of some bytes. -/
def cString (s : Bytes) : Bytes := s.takeWhile (· != 0)

def text (s : String) : Bytes := s.toUTF8.toList

/-- The length is a `uint32_t`. -/
def sendReply (data : Bytes) (len : Nat) : Bytes := data.take (len % 2 ^ 32)

namespace Shared

def wrongType : Bytes := text "-WRONGTYPE Operation against a key holding the wrong kind of value\r\n"
def wrongNumberArguments (name : String) : Bytes :=
  text "-ERR wrong number of arguments for '" ++ text name ++ text "' command\r\n"
def null : Bytes := text "$-1\r\n"

end Shared

/-- A number and a text between a dollar sign and ends of lines; what is printed is measured in an `int`, and
there is no result if that does not hold its length. -/
def gStrdupPrintf (size : Nat) (s : Bytes) : Option Bytes :=
  let printed := '$'.toUInt8 :: Resp.decimal size ++ Resp.crlf ++ cString s ++ Resp.crlf
  if printed.length < 2 ^ 31 then some printed else none

namespace RedisStore

def get (store : RedisStore κ) (key : Bytes) : Option Bytes := store.keyValues.lookup key

/-- The keys in the order in which the map is iterated. -/
def keys (store : RedisStore κ) (pattern : Bytes) : List Bytes :=
  store.keyValues.keys.filter (stringMatchLen false pattern)

end RedisStore

def getCommand (store : RedisStore κ) : List RedisElement → Result Bytes
  | [] => .error "assert(reply->elements > 0)"
  | [_, .string key] =>
      match store.get key with
      | none => .ok (sendReply Shared.null Shared.null.length)
      | some value =>
          match gStrdupPrintf value.length value with
          | none => .error "strlen of a null pointer"
          | some str => .ok (sendReply str (cString str).length)
  | [_, .other _] => .ok (sendReply Shared.wrongType Shared.wrongType.length)
  | _ => .ok (Shared.wrongNumberArguments "get")

/-- What the loop appends for a string. An empty one is not followed by an end of line. -/
def arrayElement (str : Bytes) : Bytes :=
  '$'.toUInt8 :: Resp.decimal str.length ++ Resp.crlf ++ if str ≠ [] then str ++ Resp.crlf else []

def buildRedisStringArrayReply (strs : List Bytes) : Bytes :=
  '*'.toUInt8 :: Resp.decimal strs.length ++ Resp.crlf ++ strs.flatMap arrayElement

def keysCommand (store : RedisStore κ) : List RedisElement → Result Bytes
  | [] => .error "assert(reply->elements > 0)"
  | [_, .string pattern] =>
      let str := buildRedisStringArrayReply (store.keys pattern)
      .ok (sendReply str str.length)
  | [_, .other _] => .ok (sendReply Shared.wrongType Shared.wrongType.length)
  | _ => .ok (Shared.wrongNumberArguments "keys")

/-! ### The keys -/

section Keys
variable {strs : List Bytes}

theorem arrayElement_eq {str : Bytes} (h : str ≠ []) : arrayElement str = Resp.bulk str := by
  rw [arrayElement, if_pos h, Resp.bulk, List.append_assoc, List.append_assoc, List.append_assoc]

/-- Of strings that are not empty the code makes the encoding of the protocol. -/
theorem buildRedisStringArrayReply_eq (h : [] ∉ strs) : buildRedisStringArrayReply strs = Resp.array strs := by
  have heach : ∀ str ∈ strs, arrayElement str = Resp.bulk str :=
    fun str hstr => arrayElement_eq fun hnil => h (hnil ▸ hstr)
  rw [buildRedisStringArrayReply, Resp.array, List.flatMap_congr heach]

/-- An empty string leaves the reader without the end of a line. -/
theorem readBulks_empty (h : [] ∈ strs) : Resp.readBulks strs.length (strs.flatMap arrayElement) = none := by
  induction strs with
  | nil => cases h
  | cons str strs ih =>
      rw [List.length_cons, Resp.readBulks, List.flatMap_cons]
      by_cases hnil : str = []
      · -- a dollar sign follows, or nothing
        have hnext : ((strs.flatMap arrayElement).drop 0).take 2 ≠ Resp.crlf := by
          cases strs with
          | nil => exact fun heq => by cases heq
          | cons str' strs =>
              intro heq
              have hhead := congrArg List.head? heq
              rw [List.drop_zero, List.flatMap_cons] at hhead
              cases hhead
        rw [hnil, arrayElement, if_neg (fun hne => hne rfl), List.append_nil, List.length_nil, Resp.readBulk_length,
          if_neg hnext]
        rfl
      · have hrest := ih (List.mem_of_ne_of_mem (Ne.symm hnil) h)
        rw [arrayElement_eq hnil, Resp.readBulk_bulk]
        simp only [Option.bind_eq_bind, Option.bind_some, hrest, Option.bind_none]

/-- The reply is the encoding of the keys, and a reader finds the keys in it and whatever follows behind it,
exactly if no key is empty. -/
theorem array_reply_decodable_iff (strs : List Bytes) :
    (buildRedisStringArrayReply strs = Resp.array strs ↔ [] ∉ strs) ∧
      ((∀ rest, Resp.readArray (buildRedisStringArrayReply strs ++ rest) = some (strs, rest)) ↔ [] ∉ strs) := by
  have hread : [] ∉ strs → ∀ rest, Resp.readArray (buildRedisStringArrayReply strs ++ rest) = some (strs, rest) := by
    intro h rest
    rw [buildRedisStringArrayReply_eq h]
    exact Resp.readArray_array strs rest
  have hempty : (∀ rest, Resp.readArray (buildRedisStringArrayReply strs ++ rest) = some (strs, rest)) → [] ∉ strs := by
    intro h hmem
    have hnone : Resp.readArray (buildRedisStringArrayReply strs) = none := by
      rw [buildRedisStringArrayReply]
      change (Resp.readNumber (Resp.decimal strs.length ++ Resp.crlf ++ _) >>= _) = _
      rw [Resp.readNumber_decimal]
      exact readBulks_empty hmem
    have hall := h []
    rw [List.append_nil, hnone] at hall
    cases hall
  refine ⟨⟨fun heq => hempty fun rest => ?_, buildRedisStringArrayReply_eq⟩, hempty, hread⟩
  rw [heq]
  exact Resp.readArray_array strs rest

/-- The empty key is stored, and listed for the empty pattern; the reader is left waiting. -/
theorem empty_key_undecodable :
    keysCommand ({ keyValues := AList.insert ([] : Bytes) ([120] : Bytes) ∅ } : RedisStore Unit)
        [.string [75, 69, 89, 83], .string []] = .ok (buildRedisStringArrayReply [[]]) ∧
      ¬ ∀ rest, Resp.readArray (buildRedisStringArrayReply [[]] ++ rest) = some ([[]], rest) := by
  refine ⟨by decide +kernel, fun h => ?_⟩
  have hnone := h []
  revert hnone
  decide +kernel

end Keys

/-! ### The values -/

section Values
variable {store store' : RedisStore κ} {mp : Msgpack} {nodeId : Nat} {key value : Bytes}

/-- Entries applied one after the other. -/
def RedisStore.readCommits (mp : Msgpack) (nodeId : Nat) (store : RedisStore κ) : List Bytes → Result (RedisStore κ)
  | [] => .ok store
  | data :: datas => do
      let (store, _) ← store.readCommit mp nodeId data
      store.readCommits mp nodeId datas

/-- The command sets or deletes the key. -/
def RedisCommitData.Touches (data : RedisCommitData) (key : Bytes) : Prop :=
  data.type = kCommitSet ∧ data.strs.head? = some key ∨ data.type = kCommitDel ∧ key ∈ data.strs

theorem applyData_lookup {kv kv' : KeyValues} {data : RedisCommitData} (h : kv.applyData data = .ok kv')
    (hkey : ¬ data.Touches key) : kv'.lookup key = kv.lookup key := by
  unfold KeyValues.applyData at h
  split at h
  · rename_i hset
    split at h
    · rename_i k v hstrs
      rw [← Except.ok.inj h]
      refine AList.lookup_insert_ne fun heq => hkey (Or.inl ⟨hset, ?_⟩)
      rw [hstrs, heq]
      rfl
    · cases h
  split at h
  · rename_i hdel
    rw [← Except.ok.inj h]
    have hnot : key ∉ data.strs := fun hmem => hkey (Or.inr ⟨hdel, hmem⟩)
    generalize data.strs = strs at hnot
    clear h
    induction strs generalizing kv with
    | nil => rfl
    | cons k strs ih =>
        rw [List.mem_cons, not_or] at hnot
        rw [List.foldl_cons, ih hnot.2, AList.lookup_erase_ne hnot.1]
  · rw [← Except.ok.inj h]

/-- A key that no entry touches keeps its value. -/
theorem readCommits_get {datas : List Bytes} (h : store.readCommits mp nodeId datas = .ok store')
    (hkey : ∀ data ∈ datas, ∀ commit, decodeCommit mp data = some commit → ¬ commit.redisData.Touches key) :
    store'.get key = store.get key := by
  induction datas generalizing store with
  | nil => rw [← Except.ok.inj h]
  | cons data datas ih =>
      obtain ⟨⟨store₁, told⟩, hread, h⟩ := bind_ok h
      rw [ih h fun d hd => hkey d (List.mem_cons_of_mem _ hd)]
      have hkv := RedisStore.readCommit_keyValues hread
      cases hdec : decodeCommit mp data with
      | none =>
          rw [hdec] at hkv
          rw [RedisStore.get, ← Except.ok.inj hkv, RedisStore.get]
      | some commit =>
          rw [hdec] at hkv
          exact applyData_lookup hkv (hkey data List.mem_cons_self commit hdec)

/-- A SET entry leaves its value under its key. -/
theorem readCommit_set {data : Bytes} {commit : RaftCommit} {told : Option (κ × Status)}
    (hdec : decodeCommit mp data = some commit) (hset : commit.redisData = { type := kCommitSet, strs := [key, value] })
    (h : store.readCommit mp nodeId data = .ok (store', told)) : store'.get key = some value := by
  have hkv := RedisStore.readCommit_keyValues h
  rw [hdec] at hkv
  simp only [hset, KeyValues.applyData, if_true] at hkv
  rw [RedisStore.get, ← Except.ok.inj hkv]
  exact AList.lookup_insert _

theorem cString_eq {s : Bytes} (h : 0 ∉ s) : cString s = s := by
  refine List.takeWhile_eq_self_iff.mpr fun b hb => ?_
  rw [bne_iff_ne]
  exact fun hzero => h (hzero ▸ hb)

theorem cString_length_lt {s : Bytes} (h : 0 ∈ s) : (cString s).length < s.length := by
  have hle := (List.takeWhile_prefix (p := (· != 0)) (l := s)).length_le
  refine lt_of_le_of_ne hle fun heq => ?_
  have hself := (List.takeWhile_prefix (p := (· != 0)) (l := s)).eq_of_length heq
  have hall := List.takeWhile_eq_self_iff.mp hself 0 h
  simp at hall

/-- Nothing but the value can put a zero byte into a bulk string. -/
theorem zero_mem_bulk : 0 ∈ Resp.bulk value ↔ 0 ∈ value := by
  have hdigits : (0 : UInt8) ∉ Resp.decimal value.length := by
    intro hmem
    have hdigit := Resp.decimal_digits _ 0 hmem
    revert hdigit
    decide
  have hdollar : (0 : UInt8) ≠ '$'.toUInt8 := by decide
  simp [Resp.bulk, Resp.crlf, hdigits, hdollar]

/-- What is answered for a value. -/
theorem getCommand_some {name : RedisElement} (h : store.get key = some value) :
    getCommand store [name, .string key] = .ok (Resp.bulk value) ↔
      0 ∉ value ∧ (Resp.bulk value).length < 2 ^ 31 := by
  have hprinted : 0 ∉ value → gStrdupPrintf value.length value =
      if (Resp.bulk value).length < 2 ^ 31 then some (Resp.bulk value) else none := by
    intro hzero
    rw [gStrdupPrintf, cString_eq hzero]
    rfl
  rw [getCommand, h]
  dsimp only
  constructor
  · intro hsent
    by_cases hzero : 0 ∈ value
    · -- fewer bytes are printed than the bulk string has
      exfalso
      have hlt := cString_length_lt hzero
      unfold gStrdupPrintf at hsent
      split at hsent
      · cases hsent
      · rename_i str hstr
        dsimp only at hstr
        split at hstr
        · have hlen := congrArg List.length (Except.ok.inj hsent)
          rw [sendReply, List.length_take, ← Option.some.inj hstr] at hlen
          simp only [Resp.bulk, List.length_append, List.length_cons] at hlen
          omega
        · cases hstr
    · refine ⟨hzero, ?_⟩
      by_contra hlong
      rw [hprinted hzero, if_neg hlong] at hsent
      cases hsent
  · rintro ⟨hzero, hshort⟩
    rw [hprinted hzero, if_pos hshort]
    simp only
    rw [cString_eq (fun hmem => hzero (zero_mem_bulk.mp hmem)), sendReply, Nat.mod_eq_of_lt (by omega), List.take_length]

/-- Once the entry of a SET is applied, and as long as none that follows touches the key, GET sends the value
as a bulk string, in which a reader finds it again, exactly if the value has no zero byte and what is sent
is shorter than 2 GiB. -/
theorem get_returns_set_iff {data : Bytes} {commit : RaftCommit} {later : List Bytes} {name : RedisElement}
    (hdec : decodeCommit mp data = some commit) (hset : commit.redisData = { type := kCommitSet, strs := [key, value] })
    (happ : store.readCommits mp nodeId (data :: later) = .ok store')
    (hlater : ∀ d ∈ later, ∀ c, decodeCommit mp d = some c → ¬ c.redisData.Touches key) :
    (∃ sent, getCommand store' [name, .string key] = .ok sent ∧ sent = Resp.bulk value ∧
        ∀ rest, Resp.readBulk (sent ++ rest) = some (value, rest)) ↔
      0 ∉ value ∧ (Resp.bulk value).length < 2 ^ 31 := by
  obtain ⟨⟨store₁, told⟩, hread, happ⟩ := bind_ok happ
  have hget : store'.get key = some value := (readCommits_get happ hlater).trans (readCommit_set hdec hset hread)
  have hsome : getCommand store' [name, .string key] = .ok (Resp.bulk value) ↔ _ := getCommand_some hget
  rw [← hsome]
  constructor
  · rintro ⟨sent, hsent, rfl, -⟩
    exact hsent
  · intro hsent
    exact ⟨_, hsent, rfl, Resp.readBulk_bulk value⟩

/-- The entry of a SET as the store writes it. -/
def setEntry (key value : Bytes) : Bytes :=
  messagePack.pack (RaftCommit.toObj { nodeId := 1, redisData := { type := kCommitSet, strs := [key, value] } })

/-- `SET a bc`, `SET d e` and `GET a`. -/
theorem get_returns_set_iff_two : ∃ store' : RedisStore Unit,
    ({} : RedisStore Unit).readCommits messagePack 1 [setEntry [97] [98, 99], setEntry [100] [101]] = .ok store' ∧
      getCommand store' [.string [71, 69, 84], .string [97]] = .ok [36, 50, 13, 10, 98, 99, 13, 10] := by
  obtain ⟨store', happ, -⟩ : ∃ store', ({} : RedisStore Unit).readCommits messagePack 1
      [setEntry [97] [98, 99], setEntry [100] [101]] = .ok store' ∧ true = true := exists_ok_of_any (by decide +kernel)
  have hiff := @get_returns_set_iff Unit {} store' messagePack 1 [97] [98, 99] (setEntry [97] [98, 99])
    { nodeId := 1, redisData := { type := kCommitSet, strs := [[97], [98, 99]] } } _ (.string [71, 69, 84])
    (by decide +kernel) rfl happ fun d hd c hc => by
      obtain rfl := List.mem_singleton.mp hd
      have hdec : decodeCommit messagePack (setEntry [100] [101]) =
          some { nodeId := 1, redisData := { type := kCommitSet, strs := [[100], [101]] } } := by decide +kernel
      obtain rfl := Option.some.inj (hdec.symm.trans hc)
      simp [RedisCommitData.Touches, kCommitSet, kCommitDel]
  obtain ⟨sent, hsent, rfl, -⟩ := hiff.mpr (by decide +kernel)
  exact ⟨store', happ, hsent⟩

/-- Of the value with the bytes 98, 0 and 99 the client gets the first one, behind the length of all three. -/
theorem get_cuts_at_zero : ∃ store' : RedisStore Unit,
    ({} : RedisStore Unit).readCommits messagePack 1 [setEntry [97] [98, 0, 99]] = .ok store' ∧
      getCommand store' [.string [71, 69, 84], .string [97]] = .ok [36, 51, 13, 10, 98, 13, 10] ∧
        Resp.bulk [98, 0, 99] = [36, 51, 13, 10, 98, 0, 99, 13, 10] ∧ Resp.readBulk [36, 51, 13, 10, 98, 13, 10] = none := by
  obtain ⟨store', happ, hsent⟩ : ∃ store', ({} : RedisStore Unit).readCommits messagePack 1
      [setEntry [97] [98, 0, 99]] = .ok store' ∧
        decide ((getCommand store' [.string [71, 69, 84], .string [97]]).toOption = some [36, 51, 13, 10, 98, 13, 10]) =
          true := exists_ok_of_any (by decide +kernel)
  refine ⟨store', happ, ?_, by decide +kernel, by decide +kernel⟩
  revert hsent
  cases getCommand store' [.string [71, 69, 84], .string [97]] with
  | error text => simp [Except.toOption]
  | ok sent => simp [Except.toOption]

end Values

end RaftEtcd
