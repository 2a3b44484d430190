import Peridot.MessageQueueManager

/-!
# The page of message queues

Each queue has two rows: its token under its names, and its names under its token.
-/

namespace Peridot

open MessageQueueInfo OrderedStore

/-- A row of the page: a token, or the names of a queue with its token. -/
inductive QueueRow where
  | token (queueToken : Bytes)
  | info (info : MessageQueueInfo)

/-- The page of `MessageQueueManager`. -/
abbrev MessageQueuePage : Type :=
  OrderedStore UInt8 QueueRow

def MessageQueueInfo.tokenKey (info : MessageQueueInfo) : Bytes :=
  makeMessageQueueTokenKey info.componentNamespace info.componentInstanceId info.queueName

def MessageQueueInfo.key (info : MessageQueueInfo) : Bytes :=
  makeMessageQueueKey info.queueToken

theorem MessageQueueInfo.tokenKey_eq_iff {first second : MessageQueueInfo} :
    first.tokenKey = second.tokenKey ↔ first.names = second.names := by
  constructor
  · intro same
    obtain ⟨sameNamespace, sameInstance, sameName⟩ := makeMessageQueueTokenKey_inj same
    rw [names, names, sameNamespace, sameInstance, sameName]
  · intro same
    simp only [names, List.cons.injEq, and_true] at same
    rw [tokenKey, tokenKey, same.1, same.2.1, same.2.2]

namespace MessageQueuePage

def getQueueToken (page : MessageQueuePage) (info : MessageQueueInfo) : Option Bytes :=
  match page.get info.tokenKey with
  | some (.token queueToken) => some queueToken
  | _ => none

def putQueue (page : MessageQueuePage) (info : MessageQueueInfo) : MessageQueuePage :=
  (page.put info.tokenKey (.token info.queueToken)).put info.key (.info info)

def deleteQueue (page : MessageQueuePage) (info : MessageQueueInfo) : MessageQueuePage :=
  (page.delete info.key).delete info.tokenKey

section

variable (page : MessageQueuePage)

theorem getQueueToken_congr {first second : MessageQueueInfo}
    (sameNames : first.names = second.names) :
    page.getQueueToken first = page.getQueueToken second := by
  rw [MessageQueuePage.getQueueToken, tokenKey_eq_iff.mpr sameNames]
  rfl

variable (info other : MessageQueueInfo)

theorem getQueueToken_putQueue : (page.putQueue info).getQueueToken other =
      if other.names = info.names then some info.queueToken else page.getQueueToken other := by
  have notKey : other.tokenKey ≠ info.key := Ne.symm (makeMessageQueueKey_ne _ _ _ _)
  unfold getQueueToken putQueue
  rw [get_put, if_neg notKey, get_put]
  by_cases same : other.names = info.names
  · rw [if_pos (tokenKey_eq_iff.mpr same), if_pos same]
  · rw [if_neg (mt tokenKey_eq_iff.mp same), if_neg same]

theorem getQueueToken_deleteQueue : (page.deleteQueue info).getQueueToken other =
      if other.names = info.names then none else page.getQueueToken other := by
  have notKey : other.tokenKey ≠ info.key := Ne.symm (makeMessageQueueKey_ne _ _ _ _)
  unfold getQueueToken deleteQueue
  rw [get_delete, get_delete, if_neg notKey]
  by_cases same : other.names = info.names
  · rw [if_pos (tokenKey_eq_iff.mpr same), if_pos same]
  · rw [if_neg (mt tokenKey_eq_iff.mp same), if_neg same]

end

theorem get_of_getQueueToken {page : MessageQueuePage} {info : MessageQueueInfo} {token : Bytes}
    (isToken : page.getQueueToken info = some token) :
    page.get info.tokenKey = some (.token token) := by
  unfold getQueueToken at isToken
  split at isToken
  · rename_i queueToken isRow
    rw [isRow, Option.some.inj isToken]
  · cases isToken

end MessageQueuePage

end Peridot
