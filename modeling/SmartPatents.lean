import SmartPatents.Lib.Runs
import SmartPatents.Lib.Table
import SmartPatents.Lib.Writes
import SmartPatents.Lib.ReadCommitted
import SmartPatents.Lib.Serial
import SmartPatents.Lib.Refinement
import SmartPatents.Lib.Progress
import SmartPatents.Lib.Embedding
import SmartPatents.Lib.Solo
import SmartPatents.Lib.Lone
import SmartPatents.Lib.Paging
import SmartPatents.Lib.Doubles
import SmartPatents.Lib.Arithmetic
import SmartPatents.Lib.Json
import SmartPatents.Lib.RegExp
import SmartPatents.Errors
import SmartPatents.ErrorHandler
import SmartPatents.Schema
import SmartPatents.UserService
import SmartPatents.SessionTx
import SmartPatents.SessionChains
import SmartPatents.RevokeAll
import SmartPatents.Outbox
import SmartPatents.OutboxRelay
import SmartPatents.RelayOwnership
import SmartPatents.RelayOrder
import SmartPatents.RelayDurability
import SmartPatents.RelayAlone
import SmartPatents.RelayDrain
import SmartPatents.RelayReturning
import SmartPatents.RelayOversized
import SmartPatents.RelayRestart
import SmartPatents.Idempotency
import SmartPatents.IdempotencySafety
import SmartPatents.IdempotencyRelease
import SmartPatents.PatentEvents
import SmartPatents.Database
import SmartPatents.Access
import SmartPatents.Dto
import SmartPatents.Reads
import SmartPatents.EmailPrivacy
import SmartPatents.Listing
import SmartPatents.ReadPrivacy
import SmartPatents.Lifecycle
import SmartPatents.Storage
import SmartPatents.Relations
import SmartPatents.PatentService
import SmartPatents.PatentTx
import SmartPatents.PatentAssertions
import SmartPatents.PatentOutline
import SmartPatents.PatentMoves
import SmartPatents.LinkTables
import SmartPatents.PatentHistory
import SmartPatents.PatentLinks
import SmartPatents.ConcurrentEdits
import SmartPatents.UnderReview
import SmartPatents.Catalogue
import SmartPatents.CatalogueOutline
import SmartPatents.Taxonomy
import SmartPatents.Api
import SmartPatents.Privileges
import SmartPatents.CreditLists
import SmartPatents.FatEvents
import SmartPatents.DocumentAuthority
import SmartPatents.OrphanedDocuments
import SmartPatents.Corpus
import SmartPatents.ReviewTrail
import SmartPatents.VersionContent
import SmartPatents.DocumentKeys
import SmartPatents.DocumentStore
import SmartPatents.ApiClient
import SmartPatents.TokenSessions
import SmartPatents.CurrentSession
import SmartPatents.RealRejection
import SmartPatents.IssuedTokens
import SmartPatents.BrowserSessions
import SmartPatents.HonestBrowser
import SmartPatents.LoggedOut
import SmartPatents.DeadLetters
import SmartPatents.Directory
import SmartPatents.PageNumbers
import SmartPatents.Environment
import SmartPatents.RelayLoop
import SmartPatents.InventorOrder
import SmartPatents.IdSpellings
import SmartPatents.Passwords
import SmartPatents.PasswordPolicy
import SmartPatents.ObjectKeys
import SmartPatents.UpdateAlone
import SmartPatents.PayloadSize
import SmartPatents.Lib.LastWriter
import SmartPatents.SearchIndex
import SmartPatents.Credentials
import SmartPatents.Profiles
import SmartPatents.PatentLife
import SmartPatents.PatentProgress
import SmartPatents.UseAsync
import SmartPatents.Lib.FormUrl
import SmartPatents.UsersRoute
import SmartPatents.Pagination
import SmartPatents.UsersPage
import SmartPatents.AuthContext
import SmartPatents.Screens
import SmartPatents.SignedIn
import SmartPatents.UserBodies
import SmartPatents.Addresses
