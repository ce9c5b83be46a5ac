import ShopingList.Lib.SortedDict
import ShopingList.Firebase.Node
import ShopingList.Classes.DateAndTime
import ShopingList.Classes.Objects
import ShopingList.Lib.KeyedMerge
import ShopingList.Classes.AppData
import ShopingList.Classes.Cloud
import ShopingList.App.Machine
import ShopingList.App.Offline
import ShopingList.App.Schema
import ShopingList.Classes.ReadBack
import ShopingList.App.Convergence
import ShopingList.App.Accounts
import ShopingList.App.World
import ShopingList.App.Frame
import ShopingList.App.Outcomes
import ShopingList.Classes.MergeResult
import ShopingList.App.Calls
import ShopingList.App.Invite
import ShopingList.App.Invited
import ShopingList.App.Sessions
import ShopingList.App.Delivery
import ShopingList.App.Exceptions
import ShopingList.App.StoredNames
import ShopingList.App.Waits
import ShopingList.Classes.Times
import ShopingList.App.NewLists
import ShopingList.App.ItemWrites
import ShopingList.App.NewUser
import ShopingList.App.Fetching
import ShopingList.App.Invitations
import ShopingList.App.Refresh
import ShopingList.App.OneAccount
import ShopingList.App.Deletions
import ShopingList.App.IllegalNames
import ShopingList.App.Texts
import ShopingList.Firebase.LLRB
import ShopingList.Firebase.Balance
import ShopingList.Firebase.TreeDictionary
import ShopingList.Firebase.Pennants
import ShopingList.Firebase.ImmutableDictionary
import ShopingList.Firebase.Enumerators
import ShopingList.Firebase.KeyOrder
import ShopingList.Firebase.ImmutableTree
import ShopingList.Firebase.CompoundWrite
import ShopingList.Firebase.Layers
import ShopingList.Firebase.WriteTree
import ShopingList.Firebase.Acknowledged
import ShopingList.Firebase.Repo
import ShopingList.Firebase.Export
import ShopingList.Firebase.Changes
import ShopingList.Firebase.Processing
import ShopingList.Firebase.Views
import ShopingList.Firebase.SyncTree
