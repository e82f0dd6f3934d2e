import Mitvane.StdMap
import Mitvane.PartialRun
import Mitvane.Signature
import Mitvane.Yaml
import Mitvane.PatternReader
import Mitvane.RuleReader
import Mitvane.RuleGrammar
import Mitvane.RuleLoading
import Mitvane.RuleFile
import Mitvane.Vanetza
import Mitvane.DetectionContext
import Mitvane.Decoder
import Mitvane.GeonetDetector
import Mitvane.MessageHandler
import Mitvane.PatternMatching
import Mitvane.Vocabulary
import Mitvane.IdpsContext
import Mitvane.HeaderChain
import Mitvane.Pipeline
import Mitvane.Wire
import Mitvane.Registration
import Mitvane.Forwarding
import Mitvane.UnsetFields
import Mitvane.SourcePosition
import Mitvane.SecuredPath
import Mitvane.Ownership
import Mitvane.KeywordMeaning
import Mitvane.RuleExceptions
import Mitvane.RuleKeys
import Mitvane.DecodingFrame
import Mitvane.DetectionLog
import Mitvane.Proxy
import Mitvane.ProxyRuns
import Mitvane.Relay
import Mitvane.SocketLink
import Mitvane.PositionProvider
import Mitvane.Gateway
import Mitvane.Startup
import Mitvane.Enforcement
import Mitvane.Transfers
import Mitvane.BitString
import Mitvane.BitData
import Mitvane.BitOutput
import Mitvane.PerSupport
import Mitvane.PerEntry
import Mitvane.OpenType
import Mitvane.PerInteger
import Mitvane.PerTypes
import Mitvane.PerComposite
import Mitvane.PerSequence
import Mitvane.PerVersions
import Mitvane.PerStrings
import Mitvane.PerBitString
import Mitvane.PerSchema
import Mitvane.PerPaths
import Mitvane.CamTypes
import Mitvane.DenmTypes
import Mitvane.CharacterStrings
import Mitvane.MessagePrinting
import Mitvane.CamPermissions
import Mitvane.ApplicationParsers
