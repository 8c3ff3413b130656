import Kiya.Waf.Deadlock
import Kiya.Waf.RequestBody
import Kiya.Waf.Transparency
import Kiya.Waf.Blocking
import Kiya.Db.OtherRows
import Kiya.Db.Concurrent
import Kiya.Db.Key
import Kiya.Db.Whitelist
import Kiya.Db.Refused
import Kiya.Db.Logged
import Kiya.Db.Aligned
import Kiya.Router.Order
import Kiya.RateLimit.Concurrent
import Kiya.RateLimit.Evict
import Kiya.RateLimit.Redis
import Kiya.RateLimit.Sweep
import Kiya.Security.TokenHandover
import Kiya.Security.Regenerate
import Kiya.Security.BrowserCookie
import Kiya.Router.Policy
import Kiya.Decoder.Spelling
import Kiya.Security.TypedValues
import Kiya.Logger.Shutdown
import Kiya.Waf.SessionCookie
import Kiya.Db.Reuse
import Kiya.Router.Url
import Kiya.Router.Regex
import Kiya.Db.Pages
import Kiya.Db.Scan
import Kiya.Db.Appended
import Kiya.Files.Confined
import Kiya.Web.Body
import Kiya.Validator.Pointers
import Kiya.Validator.Rows
import Kiya.Validator.Listed
import Kiya.Db.Requested
